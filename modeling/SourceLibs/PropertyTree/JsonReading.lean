import SourceLibs.PropertyTree.Json
import SourceLibs.Support.JsonGrammar
import Mathlib.Data.List.TakeWhile

/-!
# Property tree — what a parser reads

Two judgements about a parser at a place in the text, neither of which looks at lines and offsets.
`Reads p a c x r c'`: at `a`, with the callbacks in state `c`, `p` returns `x` and leaves `r` and `c'`.
`Ensures p a c Q`: `p` returns with `Q`, or throws; it is never stuck.  The rules for sequences and choices come
first, then white space, the literals and the numbers.

* `parseNumber_ensures`, `parseNumber_reads`: a number is read as far as the grammar allows.
-/

namespace SourceLibs.PropertyTree
open List

open Encoding JsonGrammar

section
variable {σ α β : Type} {p : Parser σ α} {f : α → Parser σ β} {a b r : Str} {c c' c'' : σ} {x : α} {y : β}
  {Q Q' : α → Str → σ → Prop} {R : β → Str → σ → Prop}

/-! ### The judgements -/

/-- `p` returns `x` and leaves `r` and `c'`. -/
def Reads (p : Parser σ α) (a : Str) (c : σ) (x : α) (r : Str) (c' : σ) : Prop :=
  ∀ s, s.src.cur = a → s.callbacks = c → ∃ s', p s = .ok (x, s') ∧ s'.src.cur = r ∧ s'.callbacks = c'

/-- `p` returns with `Q`, or throws. -/
def Ensures (p : Parser σ α) (a : Str) (c : σ) (Q : α → Str → σ → Prop) : Prop :=
  ∀ s, s.src.cur = a → s.callbacks = c →
    (∃ x s', p s = .ok (x, s') ∧ Q x s'.src.cur s'.callbacks) ∨
      ∃ msg filename line, p s = .error (.error msg filename line)

theorem bind_ok {s s' : State σ} (h : p s = .ok (x, s')) : (p >>= f) s = f x s' := by
  show (p s >>= fun q => f q.1 q.2) = _
  rw [h]
  rfl

theorem bind_error {s : State σ} {e : Failure} (h : p s = .error e) : (p >>= f) s = .error e := by
  show (p s >>= fun q => f q.1 q.2) = _
  rw [h]
  rfl

theorem Reads.pure (x : α) (a : Str) (c : σ) : Reads (Pure.pure x) a c x a c :=
  fun s ha hc => ⟨s, rfl, ha, hc⟩

theorem Reads.bind (h : Reads p a c x b c') (h' : Reads (f x) b c' y r c'') :
    Reads (p >>= f) a c y r c'' := by
  intro s ha hc
  obtain ⟨s₁, hp, hb, hc'⟩ := h s ha hc
  obtain ⟨s₂, hf, hr, hc''⟩ := h' s₁ hb hc'
  exact ⟨s₂, (bind_ok hp).trans hf, hr, hc''⟩

theorem Reads.ensures (h : Reads p a c x r c') (hq : Q x r c') : Ensures p a c Q := by
  intro s ha hc
  obtain ⟨s', hp, rfl, rfl⟩ := h s ha hc
  exact .inl ⟨x, s', hp, hq⟩

theorem Ensures.pure (hq : Q x a c) : Ensures (Pure.pure x) a c Q := (Reads.pure x a c).ensures hq

theorem Ensures.bind (h : Ensures p a c Q) (h' : ∀ x b c', Q x b c' → Ensures (f x) b c' R) :
    Ensures (p >>= f) a c R := by
  intro s ha hc
  rcases h s ha hc with ⟨x, s', hp, hq⟩ | ⟨msg, filename, line, hp⟩
  · rw [bind_ok hp]
    exact h' x _ _ hq s' rfl rfl
  · exact .inr ⟨msg, filename, line, bind_error hp⟩

theorem Ensures.after (h : Reads p a c x b c') (h' : Ensures (f x) b c' R) : Ensures (p >>= f) a c R :=
  (h.ensures (Q := fun x' b' d => x' = x ∧ b' = b ∧ d = c') ⟨rfl, rfl, rfl⟩).bind fun x' b' d hq => by
    obtain ⟨rfl, rfl, rfl⟩ := hq
    exact h'

theorem Ensures.mono (h : Ensures p a c Q) (hq : ∀ x r c', Q x r c' → Q' x r c') : Ensures p a c Q' := by
  intro s ha hc
  rcases h s ha hc with ⟨x, s', hp, hx⟩ | herror
  · exact .inl ⟨x, s', hp, hq _ _ _ hx⟩
  · exact .inr herror

theorem Ensures.parseError (msg : String) : Ensures (PropertyTree.parseError msg) a c Q :=
  fun _ _ _ => .inr ⟨_, _, _, rfl⟩

/-! ### One byte -/

/-- `r` does not begin with a byte that `p` accepts. -/
def Stops (p : UInt8 → Bool) (r : Str) : Prop := ∀ b t, r = b :: t → p b = false

theorem stops_nil (p : UInt8 → Bool) : Stops p [] := fun _ _ h => nomatch h

theorem stops_cons {p : UInt8 → Bool} {b : UInt8} (r : Str) (h : p b = false) : Stops p (b :: r) := by
  rintro b' t heq
  rw [← (List.cons.inj heq).1]
  exact h

theorem stops_of_not {p : UInt8 → Bool} {a : Str} (h : ¬ ∃ u b, a = u :: b ∧ p u = true) : Stops p a :=
  fun u b hab => Bool.eq_false_iff.mpr fun hu => h ⟨u, b, hab, hu⟩

theorem reads_rawCur (a : Str) (c : σ) : Reads rawCur a c a a c :=
  fun s ha hc => ⟨s, by rw [rawCur, ha], ha, hc⟩

theorem reads_call (g : σ → σ) (a : Str) (c : σ) : Reads (call g) a c () a (g c) := by
  intro s ha hc
  exact ⟨{ s with callbacks := g s.callbacks }, rfl, ha, by rw [hc]⟩

theorem reads_next (b : UInt8) (r : Str) (c : σ) : Reads next (b :: r) c () r c := by
  intro s ha hc
  refine ⟨{ s with src := s.src.next }, rfl, ?_, hc⟩
  simp only [Source.next, ha]
  split <;> rfl

theorem reads_rawNext (b : UInt8) (r : Str) (c : σ) : Reads rawNext (b :: r) c b r c := by
  intro s ha hc
  exact ⟨{ s with src := { s.src with cur := r } }, by rw [rawNext, ha], rfl, hc⟩

variable {pred : UInt8 → Bool} {u : UInt8} {g : Parser σ β} {msg : String}

theorem reads_haveUnit (h : pred u = true) : Reads (haveUnit pred) (u :: r) c true r c := by
  refine (reads_rawCur (u :: r) c).bind ?_
  show Reads (if pred u then _ else _) _ _ _ _ _
  rw [if_pos h]
  exact (reads_next u r c).bind (.pure true r c)

theorem reads_haveUnit_stops (h : Stops pred a) : Reads (haveUnit pred) a c false a c := by
  refine (reads_rawCur a c).bind ?_
  cases a with
  | nil => exact .pure false [] c
  | cons u r =>
    show Reads (if pred u then _ else _) _ _ _ _ _
    rw [h u r rfl, if_neg (by decide)]
    exact .pure false _ c

/-- A choice by the next byte, which is taken. -/
theorem Reads.have {g' : Parser σ β} (h : pred u = true) (h' : Reads g r c y b c') :
    Reads (haveUnit pred >>= fun found => if found then g else g') (u :: r) c y b c' :=
  (reads_haveUnit h).bind h'

theorem Reads.haveNot {g' : Parser σ β} (h : Stops pred a) (h' : Reads g' a c y b c') :
    Reads (haveUnit pred >>= fun found => if found then g else g') a c y b c' :=
  (reads_haveUnit_stops h).bind h'

theorem Ensures.have {g' : Parser σ β} (h : ∀ u r, a = u :: r → pred u = true → Ensures g r c R)
    (h' : Stops pred a → Ensures g' a c R) :
    Ensures (haveUnit pred >>= fun found => if found then g else g') a c R := by
  cases a with
  | nil => exact .after (reads_haveUnit_stops (stops_nil pred)) (h' (stops_nil pred))
  | cons u r =>
    cases hu : pred u with
    | true => exact .after (reads_haveUnit hu) (h u r rfl hu)
    | false => exact .after (reads_haveUnit_stops (stops_cons r hu)) (h' (stops_cons r hu))

theorem Reads.expect (h : pred u = true) (h' : Reads g r c y b c') :
    Reads (PropertyTree.expect pred msg >>= fun _ => g) (u :: r) c y b c' :=
  (Reads.have h (.pure () r c)).bind h'

theorem Ensures.expect (h : ∀ u r, a = u :: r → pred u = true → Ensures g r c R) :
    Ensures (PropertyTree.expect pred msg >>= fun _ => g) a c R := by
  have hexpect : Ensures (PropertyTree.expect pred msg) a c
      fun _ r c' => c' = c ∧ ∃ u, a = u :: r ∧ pred u = true :=
    .have (fun u r ha hu => .pure ⟨rfl, u, ha, hu⟩) fun _ => .parseError msg
  refine hexpect.bind fun _ r c' hq => ?_
  obtain ⟨rfl, u, ha, hu⟩ := hq
  exact h u r ha hu

theorem reads_needCur : Reads (needCur msg) (u :: r) c u (u :: r) c :=
  (reads_rawCur (u :: r) c).bind (.pure u _ c)

theorem Ensures.needCur {g : UInt8 → Parser σ β} (h : ∀ u r, a = u :: r → Ensures (g u) (u :: r) c R) :
    Ensures (PropertyTree.needCur msg >>= g) a c R := by
  cases a with
  | nil =>
    exact ((Ensures.after (reads_rawCur [] c) (.parseError (Q := fun _ _ _ => False) msg))).bind
      fun _ _ _ hq => hq.elim
  | cons u r => exact .after reads_needCur (h u r rfl)

/-! ### White space -/

/-- `a` does not begin with white space. -/
abbrev Unspaced (a : Str) : Prop := Stops isWs a

theorem isWs_iff (b : UInt8) : isWs b = true ↔ IsSpace b := by
  simp [isWs, IsSpace, or_assoc]

theorem exists_unspaced (a : Str) : ∃ b, Spaces a b ∧ Unspaced b := by
  induction a with
  | nil => exact ⟨[], .none [], stops_nil isWs⟩
  | cons u r ih =>
    cases hu : isWs u with
    | true =>
      obtain ⟨b, hspaces, hb⟩ := ih
      exact ⟨b, .more ((isWs_iff u).mp hu) hspaces, hb⟩
    | false => exact ⟨u :: r, .none _, stops_cons r hu⟩

theorem reads_whileWs (h : Spaces a b) (hb : Unspaced b) (fuel : ℕ) (hfuel : a.length ≤ fuel) (c : σ) :
    Reads (whileHave isWs fuel) a c () b c := by
  induction h generalizing fuel with
  | none r =>
    cases fuel with
    | zero => exact .pure () r c
    | succ fuel => exact .haveNot hb (.pure () r c)
  | more hu h ih =>
    cases fuel with
    | zero => exact absurd hfuel (Nat.not_succ_le_zero _)
    | succ fuel => exact .have ((isWs_iff _).mpr hu) (ih hb fuel (Nat.le_of_succ_le_succ hfuel))

/-- **`skip_ws`** skips the white space. -/
theorem reads_skipWs (h : Spaces a b) (hb : Unspaced b) (c : σ) : Reads skipWs a c () b c :=
  (reads_rawCur a c).bind (reads_whileWs h hb _ (Nat.le_refl _) c)

theorem Ensures.skipWs (h : ∀ b, Spaces a b → Unspaced b → Ensures g b c R) :
    Ensures (PropertyTree.skipWs >>= fun _ => g) a c R := by
  obtain ⟨b, hspaces, hb⟩ := exists_unspaced a
  exact .after (reads_skipWs hspaces hb c) (h b hspaces hb)

theorem Reads.skipWs (hs : Spaces a b) (hb : Unspaced b) (h : Reads g b c y r c') :
    Reads (PropertyTree.skipWs >>= fun _ => g) a c y r c' :=
  (reads_skipWs hs hb c).bind h

end

/-! ### Numbers -/

section
variable {σ : Type} (cb : Callbacks σ) (category : Category)

/-- The calls for a number. -/
def runNumber : Category → Str → σ → σ
  | .forward, ds, c => cb.onNumber ds c
  | .input, ds, c => cb.onEndNumber (ds.foldl (fun c d => cb.onDigit d c) (cb.onBeginNumber c))

/-- The adapter after the digits `ds` of a number that begins at `first`. -/
def scanning (first ds : Str) : NumberAdapter :=
  match category with
  | .forward => .forward first
  | .input => .input ds.isEmpty

/-- The callbacks after the digits `ds`. -/
def scanned (c : σ) (ds : Str) : σ :=
  match category with
  | .forward => c
  | .input => if ds = [] then c else ds.foldl (fun c d => cb.onDigit d c) (cb.onBeginNumber c)

variable {cb category} {first ds a r : Str} {c : σ} {d u : UInt8} {pred : UInt8 → Bool}
  {msg : String} {p : NumberAdapter → Parser σ NumberAdapter}

theorem scanning_new (first : Str) : NumberAdapter.new category first = scanning category first [] := by
  cases category with
  | forward => rfl
  | input => rfl

theorem scanned_nil (c : σ) : scanned cb category c [] = c := by
  cases category with
  | forward => rfl
  | input => rfl

/-- **One digit more.** -/
theorem reads_operator (first ds a : Str) (c : σ) (d : UInt8) :
    Reads ((scanning category first ds).operator cb d) a (scanned cb category c ds)
      (scanning category first (ds ++ [d])) a (scanned cb category c (ds ++ [d])) := by
  cases category with
  | forward => exact .pure _ a c
  | input =>
    have hempty : scanning .input first (ds ++ [d]) = .input false := by
      simp [scanning]
    have hsnoc : scanned cb .input c (ds ++ [d]) =
        cb.onDigit d (ds.foldl (fun c d => cb.onDigit d c) (cb.onBeginNumber c)) := by
      simp [scanned]
    rw [hempty, hsnoc]
    cases ds with
    | nil =>
      refine (reads_call _ a c).bind ?_
      exact (reads_call _ a _).bind (.pure _ a _)
    | cons e es =>
      show Reads (call (cb.onDigit d) >>= fun _ => pure (NumberAdapter.input false)) _ _ _ _ _
      exact (reads_call _ a _).bind (.pure _ a _)

/-- A number is a row of digits; `a` begins with some, and `r` is left of it. -/
def Scans (p : NumberAdapter → Parser σ NumberAdapter) (cb : Callbacks σ) (category : Category)
    (es a r : Str) :
    Prop :=
  ∀ first ds c, Reads (p (scanning category first ds)) a (scanned cb category c ds)
    (scanning category first (ds ++ es)) r (scanned cb category c (ds ++ es))

theorem reads_haveDigit (h : pred u = true) (first ds r : Str) (c : σ) :
    Reads (haveDigit cb pred (scanning category first ds)) (u :: r) (scanned cb category c ds)
      (true, scanning category first (ds ++ [u])) r (scanned cb category c (ds ++ [u])) := by
  refine (reads_rawCur (u :: r) _).bind ?_
  show Reads (if pred u then _ else _) _ _ _ _ _
  rw [if_pos h]
  exact (reads_operator first ds (u :: r) c u).bind ((reads_next u r _).bind (.pure _ r _))

theorem reads_haveDigit_stops (h : Stops pred a) (n : NumberAdapter) (c : σ) :
    Reads (haveDigit cb pred n) a c (false, n) a c := by
  refine (reads_rawCur a c).bind ?_
  cases a with
  | nil => exact .pure _ [] c
  | cons u r =>
    show Reads (if pred u then _ else _) _ _ _ _ _
    rw [h u r rfl, if_neg (by decide)]
    exact .pure _ _ c

theorem scans_expectDigit (h : pred u = true) (r : Str) :
    Scans (expectDigit cb pred msg) cb category [u] (u :: r) r :=
  fun first ds c => (reads_haveDigit h first ds r c).bind (.pure _ r _)

theorem isDigit_iff (b : UInt8) : isDigit b = true ↔ IsDigit b := by
  simp [isDigit, IsDigit, UInt8.le_iff_toNat_le]

theorem scans_digitLoop {es : Str} (hes : ∀ e ∈ es, IsDigit e) (hr : Stops isDigit r) :
    ∀ fuel, es.length + r.length ≤ fuel → Scans (digitLoop cb fuel) cb category es (es ++ r) r := by
  induction es with
  | nil =>
    intro fuel _ first ds c
    rw [append_nil]
    cases fuel with
    | zero => exact .pure _ r _
    | succ fuel => exact (reads_haveDigit_stops hr _ _).bind (.pure _ r _)
  | cons e es ih =>
    intro fuel hfuel first ds c
    cases fuel with
    | zero => exact absurd hfuel (by simp)
    | succ fuel =>
      have he := (isDigit_iff e).mpr (hes e mem_cons_self)
      have hloop := ih (fun u hu => hes u (mem_cons_of_mem _ hu)) fuel
        (by rw [length_cons] at hfuel; omega) first (ds ++ [e]) c
      rw [List.append_assoc] at hloop
      exact (reads_haveDigit he first ds _ c).bind hloop

/-- **`parse_digits`** reads all digits there are. -/
theorem scans_parseDigits {es : Str} (hes : ∀ e ∈ es, IsDigit e) (hr : Stops isDigit r) :
    Scans (parseDigits cb) cb category es (es ++ r) r := fun first ds c =>
  (reads_rawCur _ _).bind (scans_digitLoop hes hr _ (by rw [length_append]) first ds c)

theorem exists_digits (a : Str) : ∃ es r, a = es ++ r ∧ (∀ e ∈ es, IsDigit e) ∧ Stops isDigit r := by
  refine ⟨a.takeWhile isDigit, a.dropWhile isDigit, takeWhile_append_dropWhile.symm, fun e he => ?_,
    fun b t hb => ?_⟩
  · exact (isDigit_iff e).mp (mem_takeWhile_imp he)
  · have := head?_dropWhile_not isDigit a
    rw [hb] at this
    simpa using this

theorem Scans.bind {p q : NumberAdapter → Parser σ NumberAdapter} {es es' b : Str}
    (h : Scans p cb category es a b) (h' : Scans q cb category es' b r) :
    Scans (fun n => p n >>= q) cb category (es ++ es') a r := by
  intro first ds c
  have := h' first (ds ++ es) c
  rw [List.append_assoc] at this
  exact (h first ds c).bind this

/-- What a part of a number ensures: it reads a row of digits with `P`. -/
def Parts (p : NumberAdapter → Parser σ NumberAdapter) (cb : Callbacks σ) (category : Category)
    (P : Str → Prop) : Prop :=
  ∀ first ds a c, Ensures (p (scanning category first ds)) a (scanned cb category c ds) fun n r c' =>
    ∃ es, a = es ++ r ∧ P es ∧ n = scanning category first (ds ++ es) ∧ c' = scanned cb category c (ds ++ es)

theorem Scans.parts {es first ds : Str} {P : Str → Prop} (h : Scans p cb category es a r)
    (ha : a = es ++ r) (hes : P es) :
    Ensures (p (scanning category first ds)) a (scanned cb category c ds) fun n r c' =>
      ∃ es, a = es ++ r ∧ P es ∧ n = scanning category first (ds ++ es) ∧
        c' = scanned cb category c (ds ++ es) :=
  (h first ds c).ensures ⟨es, ha, hes, rfl, rfl⟩

theorem scans_digits {es : Str} (hd : IsDigit d) (hes : ∀ e ∈ es, IsDigit e) (hr : Stops isDigit r) :
    Scans (fun n => expectDigit cb isDigit msg n >>= parseDigits cb) cb category (d :: es)
      (d :: (es ++ r)) r :=
  (scans_expectDigit ((isDigit_iff d).mpr hd) (es ++ r)).bind (scans_parseDigits hes hr)

theorem parts_digits :
    Parts (fun n => expectDigit cb isDigit msg n >>= parseDigits cb) cb category fun ds =>
      ∃ d es, ds = d :: es ∧ IsDigit d ∧ ∀ e ∈ es, IsDigit e := by
  intro first ds a c
  by_cases ha : ∃ d b, a = d :: b ∧ isDigit d = true
  · obtain ⟨d, b, rfl, hd⟩ := ha
    obtain ⟨es, r, rfl, hes, hr⟩ := exists_digits b
    rw [isDigit_iff] at hd
    exact (scans_digits hd hes hr).parts rfl ⟨d, es, rfl, hd, hes⟩
  · have hstops : Stops isDigit a := stops_of_not ha
    have herror : Ensures (expectDigit cb isDigit msg (scanning category first ds)) a
        (scanned cb category c ds) fun _ _ _ => False :=
      .after (reads_haveDigit_stops hstops _ _) (.parseError msg)
    exact herror.bind fun _ _ _ h => h.elim

theorem reads_found {pred : UInt8 → Bool} {es b : Str} (hu : pred u = true)
    (h : Scans p cb category es b r) :
    Scans (fun n => haveDigit cb pred n >>= fun (found, n) => if found then p n else pure n) cb category
      (u :: es) (u :: b) r := by
  intro first ds c
  have hp := h first (ds ++ [u]) c
  rw [List.append_assoc] at hp
  exact (reads_haveDigit hu first ds b c).bind hp

theorem parts_found {pred : UInt8 → Bool} {P : Str → Prop} (h : Parts p cb category P) :
    Parts (fun n => haveDigit cb pred n >>= fun (found, n) => if found then p n else pure n) cb category
      fun ds => ds = [] ∨ ∃ u es, ds = u :: es ∧ pred u = true ∧ P es := by
  intro first ds a c
  by_cases ha : ∃ u b, a = u :: b ∧ pred u = true
  · obtain ⟨u, b, rfl, hu⟩ := ha
    refine .after (reads_haveDigit hu first ds b c) ((h first (ds ++ [u]) b c).mono fun n r c' hq => ?_)
    obtain ⟨es, rfl, hes, hn, hc⟩ := hq
    rw [List.append_assoc] at hn hc
    exact ⟨u :: es, rfl, .inr ⟨u, es, rfl, hu, hes⟩, hn, hc⟩
  · have hstops : Stops pred a := stops_of_not ha
    refine .after (reads_haveDigit_stops hstops _ _) (.pure ⟨[], rfl, .inl rfl, ?_, ?_⟩)
    · rw [append_nil]
    · rw [append_nil]

theorem scans_missing {pred : UInt8 → Bool} (h : Stops pred r) :
    Scans (fun n => haveDigit cb pred n >>= fun (found, n) => if found then p n else pure n) cb category
      [] r r := by
  intro first ds c
  rw [append_nil]
  exact (reads_haveDigit_stops h _ _).bind (.pure _ r _)

theorem scans_parseFracPart {frac : Str} (h : IsFrac frac) (hr : Stops isDigit r) (hdot : Stops isDot r) :
    Scans (parseFracPart cb) cb category frac (frac ++ r) r := by
  rcases h with rfl | ⟨d, es, rfl, hd, hes⟩
  · exact scans_missing (p := fun n => expectDigit cb isDigit _ n >>= parseDigits cb) hdot
  · exact reads_found rfl (scans_digits hd hes hr)

theorem parts_parseFracPart : Parts (parseFracPart cb) cb category IsFrac := by
  intro first ds a c
  refine (parts_found parts_digits first ds a c).mono fun n r c' hq => ?_
  obtain ⟨es, ha, hes, hn, hc⟩ := hq
  refine ⟨es, ha, hes.imp_right ?_, hn, hc⟩
  rintro ⟨u, ds, rfl, hu, d, es, rfl, hd, hes⟩
  exact ⟨d, es, by rw [isDot, beq_iff_eq] at hu; rw [hu], hd, hes⟩

theorem scans_sign {sign es b : Str} (hsign : sign = [] ∨ sign = [0x2B] ∨ sign = [0x2D])
    (hb : Stops isPlusminus b) (h : Scans p cb category es b r) :
    Scans (fun n => haveDigit cb isPlusminus n >>= fun (_, n) => p n) cb category (sign ++ es)
      (sign ++ b) r := by
  have htaken : ∀ u, isPlusminus u = true →
      Scans (fun n => haveDigit cb isPlusminus n >>= fun (_, n) => p n) cb category ([u] ++ es)
        ([u] ++ b) r := by
    intro u hu first ds c
    have hp := h first (ds ++ [u]) c
    rw [List.append_assoc] at hp
    exact (reads_haveDigit hu first ds b c).bind hp
  rcases hsign with rfl | rfl | rfl
  · exact fun first ds c => (reads_haveDigit_stops hb _ _).bind (h first ds c)
  · exact htaken _ rfl
  · exact htaken _ rfl

theorem parts_sign {P : Str → Prop} (h : Parts p cb category P) :
    Parts (fun n => haveDigit cb isPlusminus n >>= fun (_, n) => p n) cb category fun ds =>
      ∃ sign es, ds = sign ++ es ∧ (sign = [] ∨ sign = [0x2B] ∨ sign = [0x2D]) ∧ P es := by
  intro first ds a c
  by_cases ha : ∃ u b, a = u :: b ∧ isPlusminus u = true
  · obtain ⟨u, b, rfl, hu⟩ := ha
    refine .after (reads_haveDigit hu first ds b c) ((h first (ds ++ [u]) b c).mono fun n r c' hq => ?_)
    obtain ⟨es, rfl, hes, hn, hc⟩ := hq
    rw [List.append_assoc] at hn hc
    refine ⟨u :: es, rfl, ⟨[u], es, rfl, .inr ?_, hes⟩, hn, hc⟩
    simpa [isPlusminus] using hu
  · have hstops : Stops isPlusminus a := stops_of_not ha
    refine .after (reads_haveDigit_stops hstops _ _) ((h first ds a c).mono fun n r c' hq => ?_)
    obtain ⟨es, rfl, hes, hn, hc⟩ := hq
    exact ⟨es, rfl, ⟨[], es, rfl, .inl rfl, hes⟩, hn, hc⟩

theorem isPlusminus_digit (h : IsDigit d) : isPlusminus d = false := by
  cases hd : isPlusminus d with
  | false => rfl
  | true =>
    rw [isPlusminus, Bool.or_eq_true, beq_iff_eq, beq_iff_eq] at hd
    rcases hd with rfl | rfl <;> exact absurd h (by decide)

theorem scans_parseExpPart {exp : Str} (h : IsExp exp) (hr : Stops isDigit r) (hE : Stops isEE r) :
    Scans (parseExpPart cb) cb category exp (exp ++ r) r := by
  rcases h with rfl | ⟨x, sign, d, es, rfl, hx, hsign, hd, hes⟩
  · exact scans_missing (p := fun n => haveDigit cb isPlusminus n >>= fun (_, n) =>
      expectDigit cb isDigit _ n >>= parseDigits cb) hE
  · have hx' : isEE x = true := by rcases hx with rfl | rfl <;> rfl
    have hdigits : Scans (fun n => expectDigit cb isDigit "need at least one digit in exponent" n >>=
        parseDigits cb) cb category (d :: es) (d :: (es ++ r)) r := scans_digits hd hes hr
    have hsigned := scans_sign hsign (stops_cons (es ++ r) (isPlusminus_digit hd)) hdigits
    rw [List.cons_append, List.append_assoc]
    exact reads_found hx' hsigned

theorem parts_parseExpPart : Parts (parseExpPart cb) cb category IsExp := by
  intro first ds a c
  refine (parts_found (parts_sign parts_digits) first ds a c).mono fun n r c' hq => ?_
  obtain ⟨es, ha, hes, hn, hc⟩ := hq
  refine ⟨es, ha, hes.imp_right ?_, hn, hc⟩
  rintro ⟨x, ds, rfl, hx, sign, ds', rfl, hsign, d, es, rfl, hd, hes⟩
  exact ⟨x, sign, d, es, rfl, by simpa [isEE] using hx, hsign, hd, hes⟩

theorem isDigit0_iff (b : UInt8) : isDigit0 b = true ↔ IsDigit b ∧ b ≠ 0x30 := by
  have hne : b ≠ 0x30 ↔ b.toNat ≠ 48 := by
    rw [Ne, ← UInt8.toNat_inj]
    rfl
  simp only [isDigit0, IsDigit, Bool.and_eq_true, decide_eq_true_eq, UInt8.le_iff_toNat_le, hne]
  show 49 ≤ b.toNat ∧ b.toNat ≤ 57 ↔ (48 ≤ b.toNat ∧ b.toNat ≤ 57) ∧ b.toNat ≠ 48
  omega

theorem is0_iff (b : UInt8) : is0 b = true ↔ b = 0x30 := beq_iff_eq

theorem reads_zero (first ds r : Str) (c : σ) :
    Reads (zeroOrIntPart cb (scanning category first ds)) (0x30 :: r) (scanned cb category c ds)
      (true, scanning category first (ds ++ [0x30])) r (scanned cb category c (ds ++ [0x30])) :=
  (reads_haveDigit rfl first ds r c).bind (.pure _ r _)

theorem reads_intPart {es : Str} (hd : IsDigit d) (hne : d ≠ 0x30) (hes : ∀ e ∈ es, IsDigit e)
    (hr : Stops isDigit r) (first ds : Str) (c : σ) :
    Reads (zeroOrIntPart cb (scanning category first ds)) (d :: (es ++ r)) (scanned cb category c ds)
      (true, scanning category first (ds ++ d :: es)) r (scanned cb category c (ds ++ d :: es)) := by
  have hzero : Stops is0 (d :: (es ++ r)) := stops_cons _ (Bool.eq_false_iff.mpr (mt (is0_iff d).mp hne))
  have hscans : Scans (parseDigits cb) cb category es (es ++ r) r := scans_parseDigits hes hr
  have hdigits := hscans first (ds ++ [d]) c
  rw [List.append_assoc] at hdigits
  refine (reads_haveDigit_stops hzero _ _).bind ?_
  exact (reads_haveDigit ((isDigit0_iff d).mpr ⟨hd, hne⟩) first ds (es ++ r) c).bind
    (hdigits.bind (.pure _ r _))

theorem reads_zeroOrIntPart {int : Str} (h : IsInt int) (hr : Stops isDigit r) (first ds : Str) (c : σ) :
    Reads (zeroOrIntPart cb (scanning category first ds)) (int ++ r) (scanned cb category c ds)
      (true, scanning category first (ds ++ int)) r (scanned cb category c (ds ++ int)) := by
  rcases h with rfl | ⟨d, es, rfl, hd, hne, hes⟩
  · exact reads_zero first ds r c
  · exact reads_intPart hd hne hes hr first ds c

theorem zeroOrIntPart_ensures (first ds a : Str) (c : σ) :
    Ensures (zeroOrIntPart cb (scanning category first ds)) a (scanned cb category c ds) fun x r c' =>
      (∃ int, x = (true, scanning category first (ds ++ int)) ∧ a = int ++ r ∧ IsInt int ∧
        c' = scanned cb category c (ds ++ int)) ∨
      (x = (false, scanning category first ds) ∧ r = a ∧ c' = scanned cb category c ds ∧
        Stops isDigit a) := by
  by_cases ha : ∃ u b, a = u :: b ∧ isDigit u = true
  · obtain ⟨u, b, rfl, hu⟩ := ha
    rw [isDigit_iff] at hu
    by_cases hzero : u = 0x30
    · subst hzero
      exact (reads_zero first ds b c).ensures (.inl ⟨[0x30], rfl, rfl, .inl rfl, rfl⟩)
    · obtain ⟨es, r, rfl, hes, hr⟩ := exists_digits b
      exact (reads_intPart hu hzero hes hr first ds c).ensures
        (.inl ⟨u :: es, rfl, rfl, .inr ⟨u, es, rfl, hu, hzero, hes⟩, rfl⟩)
  · have hstops : Stops isDigit a := stops_of_not ha
    have hzero : Stops is0 a := fun u b hab => Bool.eq_false_iff.mpr fun hu => by
      have := hstops u b hab
      rw [(is0_iff u).mp hu] at this
      exact absurd this (by decide)
    have hint : Stops isDigit0 a := fun u b hab => Bool.eq_false_iff.mpr fun hu => by
      have := hstops u b hab
      rw [(isDigit_iff u).mpr ((isDigit0_iff u).mp hu).1] at this
      exact nomatch this
    refine .after (reads_haveDigit_stops hzero _ _) ?_
    exact .after (reads_haveDigit_stops hint _ _) (.pure (.inr ⟨rfl, rfl, rfl, hstops⟩))

theorem range_append (w r : Str) : range (w ++ r) r = w := by
  rw [range, length_append, Nat.add_sub_cancel, take_left]

/-- The end of a number calls its value. -/
theorem reads_finish {ds : Str} (hds : ds ≠ []) (r : Str) (c : σ) :
    Reads ((scanning category (ds ++ r) ds).finish cb) r (scanned cb category c ds) () r
      (runNumber cb category ds c) := by
  cases category with
  | forward =>
    refine (reads_rawCur r c).bind ?_
    rw [range_append]
    exact reads_call _ r c
  | input =>
    have hscanned : scanned cb .input c ds = ds.foldl (fun c d => cb.onDigit d c) (cb.onBeginNumber c) :=
      if_neg hds
    rw [hscanned]
    exact reads_call _ r _

theorem reads_minus (category : Category) (first r : Str) (c : σ) :
    Reads (haveDigit cb isMinus (scanning category first [])) (0x2D :: r) c
      (true, scanning category first [0x2D]) r (scanned cb category c [0x2D]) := by
  have hfound : isMinus 0x2D = true := rfl
  have hread : Reads (haveDigit cb isMinus (scanning category first [])) (0x2D :: r)
    (scanned cb category c [])
      (true, scanning category first [0x2D]) r (scanned cb category c [0x2D]) :=
    reads_haveDigit hfound first [] r c
  rwa [scanned_nil] at hread

/-- What a parser does that reads a phrase, if there is one: it reads it behind the white space, or only the
white space. -/
def Tries (P : Str → Str → σ → σ → Prop) (a : Str) (c : σ) (x : Bool) (r : Str) (c' : σ) : Prop :=
  (x = true ∧ ∃ b, Spaces a b ∧ P b r c c') ∨ (x = false ∧ Spaces a r ∧ Unspaced r ∧ c' = c)

/-- **A number is read, or nothing.** -/
theorem parseNumber_ensures (a : Str) (c : σ) :
    Ensures (parseNumber cb category) a c
      (Tries (fun b r c c' => ∃ ds, b = ds ++ r ∧ IsNumber ds ∧ c' = runNumber cb category ds c) a c) := by
  refine .skipWs fun b hspaces hb => .after (reads_rawCur b c) ?_
  have hminus : Ensures (haveDigit cb isMinus (.new category b)) b c fun x r c' =>
      ∃ minus, x = (!minus.isEmpty, scanning category b minus) ∧ b = minus ++ r ∧
        (minus = [] ∨ minus = [0x2D]) ∧ c' = scanned cb category c minus := by
    rw [scanning_new]
    by_cases hu : ∃ u r, b = u :: r ∧ isMinus u = true
    · obtain ⟨u, r, rfl, hu⟩ := hu
      rw [isMinus, beq_iff_eq] at hu
      subst hu
      exact (reads_minus category (0x2D :: r) r c).ensures ⟨[0x2D], rfl, rfl, .inr rfl, rfl⟩
    · exact (reads_haveDigit_stops (stops_of_not hu) _ _).ensures
        ⟨[], rfl, rfl, .inl rfl, (scanned_nil c).symm⟩
  refine hminus.bind fun x b₁ c₁ hq => ?_
  obtain ⟨minus, rfl, hb₁, hminus, rfl⟩ := hq
  refine (zeroOrIntPart_ensures b minus b₁ c).bind fun x b₂ c₂ hq => ?_
  rcases hq with ⟨int, rfl, hb₂, hint, rfl⟩ | ⟨rfl, rfl, rfl, -⟩
  · refine (parts_parseFracPart b _ b₂ c).bind fun n b₃ c₃ hq => ?_
    obtain ⟨frac, hb₃, hfrac, rfl, rfl⟩ := hq
    refine (parts_parseExpPart b _ b₃ c).bind fun n b₄ c₄ hq => ?_
    obtain ⟨exp, hb₄, hexp, rfl, rfl⟩ := hq
    obtain ⟨ds, hds⟩ : ∃ ds, ds = minus ++ int ++ frac ++ exp := ⟨_, rfl⟩
    have hnumber : IsNumber ds :=
      ⟨minus, int, frac, exp, by rw [hds, List.append_assoc, List.append_assoc], hminus, hint, hfrac, hexp⟩
    have hb : b = ds ++ b₄ := by
      rw [hds, hb₁, hb₂, hb₃, hb₄]
      simp only [List.append_assoc]
    rw [← hds, hb]
    refine .after (reads_finish hnumber.ne_nil b₄ c) (.pure (.inl ⟨rfl, ds ++ b₄, ?_, ds, rfl, hnumber, rfl⟩))
    exact hb ▸ hspaces
  · rcases hminus with rfl | rfl
    · rw [nil_append] at hb₁
      subst hb₁
      exact .pure (.inr ⟨rfl, hspaces, hb, scanned_nil c⟩)
    · exact .parseError _

/-- `r` does not go on with a number. -/
def EndsNumber (r : Str) : Prop := Stops isDigit r ∧ Stops isDot r ∧ Stops isEE r

theorem Stops.append {es : Str} (h : Stops pred r) (hes : es = [] ∨ ∃ u t, es = u :: t ∧ pred u = false) :
    Stops pred (es ++ r) := by
  rcases hes with rfl | ⟨u, t, rfl, hu⟩
  · exact h
  · exact stops_cons _ hu

theorem head_of_isNumber {ds : Str} (h : IsNumber ds) : ∃ u t, ds = u :: t ∧ (u = 0x2D ∨ IsDigit u) := by
  obtain ⟨minus, int, frac, exp, rfl, rfl | rfl, hint, -, -⟩ := h
  · rcases hint with rfl | ⟨d, es, rfl, hd, -⟩
    · exact ⟨0x30, _, rfl, .inr (by decide)⟩
    · exact ⟨d, _, rfl, .inr hd⟩
  · exact ⟨0x2D, _, rfl, .inl rfl⟩

theorem isWs_digit (h : u = 0x2D ∨ IsDigit u) : isWs u = false := by
  refine Bool.eq_false_iff.mpr fun hws => ?_
  rcases (isWs_iff u).mp hws with rfl | rfl | rfl | rfl <;> revert h <;> decide

/-- **A number of the grammar is read**, if the text does not go on with it. -/
theorem parseNumber_reads {ds : Str} (h : IsNumber ds) (hr : EndsNumber r) (hs : Spaces a (ds ++ r)) (c : σ) :
    Reads (parseNumber cb category) a c true r (runNumber cb category ds c) := by
  obtain ⟨hdigit, hdot, hE⟩ := hr
  have hunspaced : Unspaced (ds ++ r) := by
    obtain ⟨u, t, rfl, hu⟩ := head_of_isNumber h
    exact stops_cons _ (isWs_digit hu)
  refine (reads_skipWs hs hunspaced c).bind ((reads_rawCur _ c).bind ?_)
  have hne := h.ne_nil
  obtain ⟨minus, int, frac, exp, hds, hminus, hint, hfrac, hexp⟩ := h
  -- Where each part ends.
  have hexpDigit : Stops isDigit (exp ++ r) := hdigit.append (hexp.imp_right fun ⟨x, _, _, _, heq, hx, _⟩ =>
    ⟨x, _, heq, by rcases hx with rfl | rfl <;> rfl⟩)
  have hexpDot : Stops isDot (exp ++ r) := hdot.append (hexp.imp_right fun ⟨x, _, _, _, heq, hx, _⟩ =>
    ⟨x, _, heq, by rcases hx with rfl | rfl <;> rfl⟩)
  have hfracDigit : Stops isDigit (frac ++ (exp ++ r)) :=
    hexpDigit.append (hfrac.imp_right fun ⟨_, _, heq, _⟩ => ⟨_, _, heq, rfl⟩)
  have hsplit : ds ++ r = minus ++ (int ++ (frac ++ (exp ++ r))) := by
    rw [hds]
    simp only [List.append_assoc]
  have hread : Reads (haveDigit cb isMinus (.new category (ds ++ r))) (ds ++ r) c
      (!minus.isEmpty, scanning category (ds ++ r) minus) (int ++ (frac ++ (exp ++ r)))
      (scanned cb category c minus) := by
    rw [scanning_new]
    rcases hminus with rfl | rfl
    · have hstops : Stops isMinus (ds ++ r) := by
        rw [hsplit]
        rcases hint with rfl | ⟨d, es, rfl, hd, -⟩
        · exact stops_cons _ rfl
        · refine stops_cons _ (Bool.eq_false_iff.mpr fun hd' => ?_)
          rw [isMinus, beq_iff_eq] at hd'
          subst hd'
          exact absurd hd (by decide)
      rw [nil_append] at hsplit
      rw [scanned_nil, ← hsplit]
      exact reads_haveDigit_stops hstops _ c
    · rw [hsplit]
      exact reads_minus category _ _ c
  refine hread.bind ((reads_zeroOrIntPart hint hfracDigit _ minus c).bind ?_)
  refine (scans_parseFracPart hfrac hexpDigit hexpDot _ (minus ++ int) c).bind ?_
  refine (scans_parseExpPart hexp hdigit hE _ (minus ++ int ++ frac) c).bind ?_
  have hparts : minus ++ int ++ frac ++ exp = ds := by
    rw [hds]
    simp only [List.append_assoc]
  rw [hparts]
  exact (reads_finish hne r c).bind (.pure true r _)

end

end SourceLibs.PropertyTree
