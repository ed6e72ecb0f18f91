import SourceLibs.Skynet.Threads
import Mathlib.Algebra.BigOperators.Group.List.Basic
import Mathlib.Algebra.Order.Group.Multiset
import Mathlib.Data.Multiset.Count

/-!
# Skynet — who has a queue

A queue is in the global list, or some thread holds it, or neither, and never two of these: `in_global`
is cleared only together with the hold of the worker that found the queue empty, and whoever sets it
puts the queue in the list in the same step.  A context that is marked has no reference left, so that
nobody pushes to a queue that is about to be freed.

The invariant speaks of the list, of what the threads hold, refer to, are about to mark and are about to
free, each with its multiplicity.  A step of a thread moves a queue or a context between these.

* `advance_inv`: a step of a thread.
* `messageQueue_run`: what holds in every run.
* `messageQueue_step_iff`: which assertions fail.
-/

namespace SourceLibs.SkynetMq
open List Option Function

namespace Thread

/-- The queues that a thread holds: it took them from the global list, or is creating them. -/
@[simp] def held : Thread → Multiset ℕ
  | .loop none           => 0
  | .loop (some q)       => {q}
  | .fetch               => 0
  | .grabbed _           => 0
  | .releasing _ k       => k.held
  | .deleting _ k        => k.held
  | .launching _ c       => {c}
  | .publishing q        => {q}
  | .retiring _ k        => k.held
  | .abandoning q k      => q ::ₘ k.held
  | .dropping q k        => q ::ₘ k.held
  | .dispatching q _ _ _ => {q}
  | .popped q _ _ _      => {q}
  | .pushingBack q _ nq  => q ::ₘ {nq}

/-- The contexts it has a reference to. -/
@[simp] def refs : Thread → Multiset ℕ
  | .loop _              => 0
  | .fetch               => 0
  | .grabbed c           => {c}
  | .releasing c k       => c ::ₘ k.refs
  | .deleting _ k        => k.refs
  | .launching _ c       => {c}
  | .publishing _        => 0
  | .retiring _ k        => k.refs
  | .abandoning _ k      => k.refs
  | .dropping _ k        => k.refs
  | .dispatching _ c _ _ => {c}
  | .popped _ c _ _      => {c}
  | .pushingBack _ c _   => {c}

/-- The contexts it is about to mark. -/
@[simp] def marks : Thread → Multiset ℕ
  | .releasing _ k       => k.marks
  | .deleting c k        => c ::ₘ k.marks
  | .retiring _ k        => k.marks
  | .abandoning _ k      => k.marks
  | .dropping _ k        => k.marks
  | _                    => 0

/-- The queues it is about to free. -/
@[simp] def drops : Thread → Multiset ℕ
  | .releasing _ k       => k.drops
  | .deleting _ k        => k.drops
  | .retiring _ k        => k.drops
  | .abandoning _ k      => k.drops
  | .dropping q k        => q ::ₘ k.drops
  | _                    => 0

theorem drops_le_held (t : Thread) : t.drops ≤ t.held := by
  induction t with
  | releasing c k ih => exact ih
  | deleting c k ih => exact ih
  | retiring h k ih => exact ih
  | abandoning q k ih => exact ih.trans (Multiset.le_cons_self _ q)
  | dropping q k ih => exact Multiset.cons_le_cons q ih
  | _ => exact Multiset.zero_le _

end Thread

variable {α : Type*}

/-! ### The invariant -/

/-- A queue with the messages `b`, of a context with `ref` references.  `O` counts where it is, in the
list or held; `R` references are in use by threads, `M` threads are about to mark it and `D` to free
it. -/
structure Live (m : MessageQueue α) (b : List α) (slots : ℕ → Prop) (ref O R M D : ℕ) : Prop where
  holds : m.Holds b
  once : O ≤ 1
  owned : 0 < O → m.inGlobal = true ∨ m.release = true
  placed : m.inGlobal = true → 0 < O
  quiet : m.inGlobal = false → b = []
  used : 0 < R + M → m.release = false
  slot : ∀ h, slots h → R + 1 ≤ ref ∧ m.handle = h ∧ m.release = false
  refs : R ≤ ref
  marked : 0 < M → ref = 0 ∧ M ≤ 1
  doomed : 0 < D → m.release = true

/-- Nobody has a queue that is neither in use nor marked. -/
theorem Live.owners {m : MessageQueue α} {b : List α} {slots : ℕ → Prop} {ref O R M D : ℕ}
    (h : Live m b slots ref O R M D) (hglob : m.inGlobal = false) (hrel : m.release = false) :
    O = 0 := by
  by_contra hne
  have := h.owned (Nat.pos_of_ne_zero hne)
  simp [hglob, hrel] at this

/-- What is known of one queue, present or not. -/
def At (mq : Option (MessageQueue α)) (slots : ℕ → Prop) (pushed taken : List α)
    (ref O R M D : ℕ) : Prop :=
  match mq with
  | none   => pushed = taken ∧ O + R + M + D = 0 ∧ ∀ h, ¬ slots h
  | some m => ∃ b, pushed = taken ++ b ∧ Live m b slots ref O R M D

/-- The invariant: `l` is the global list, and the threads hold `H`, refer to `R`, are about to mark `M`
and to free `D`. -/
structure Inv (s : Shared α) (l : List ℕ) (H R M D : Multiset ℕ) : Prop where
  lists : s.Q.Lists l
  fresh : ∀ q m, s.mq q = some m → q < s.created
  each : ∀ q, At (s.mq q) (s.slot · = some q) (s.pushed q) (s.taken q) (s.ref q)
    (l.count q + H.count q) (R.count q) (M.count q) (D.count q)

theorem inv_init : Inv (Shared.init : Shared α) [] 0 0 0 0 :=
  ⟨LinkedQueue.lists_empty, fun _ _ h => (nomatch h), fun _ => ⟨rfl, rfl, fun _ h => (nomatch h)⟩⟩

section Rules
variable {s : Shared α} {l : List ℕ} {H R M D : Multiset ℕ} {q c : ℕ}

theorem Inv.live (h : Inv s l H R M D) {m : MessageQueue α} (hm : s.mq q = some m) :
    ∃ b, s.pushed q = s.taken q ++ b ∧ Live m b (s.slot · = some q) (s.ref q)
      (l.count q + H.count q) (R.count q) (M.count q) (D.count q) := by
  have := h.each q
  rwa [hm] at this

theorem Inv.exists_mq (h : Inv s l H R M D)
    (hq : l.count q + H.count q + R.count q + M.count q + D.count q ≠ 0) :
    ∃ m, s.mq q = some m := by
  have hat := h.each q
  cases hm : s.mq q with
  | none => rw [hm] at hat; exact absurd hat.2.1 hq
  | some m => exact ⟨m, rfl⟩

/-- **One queue changes**, and with it what is known of it alone. -/
theorem Inv.set (h : Inv s l H R M D) {m v : MessageQueue α} (hm : s.mq q = some m)
    {p t : List α} {G N : Multiset ℕ} (hH : ∀ q' ≠ q, G.count q' = H.count q')
    (hM : ∀ q' ≠ q, N.count q' = M.count q')
    (hat : ∃ b, p = t ++ b ∧ Live v b (s.slot · = some q) (s.ref q)
      (l.count q + G.count q) (R.count q) (N.count q) (D.count q)) :
    Inv { s.setQueue q v with
      pushed := update s.pushed q p
      taken := update s.taken q t } l G R N D := by
  refine ⟨h.lists, fun q' m₁ hm₁ => ?_, fun q' => ?_⟩
  · by_cases hq : q' = q
    · exact hq ▸ h.fresh q m hm
    · exact h.fresh q' m₁ (by simpa [Shared.setQueue, hq] using hm₁)
  · by_cases hq : q' = q
    · subst hq
      simpa [Shared.setQueue, At] using hat
    · have := h.each q'
      simpa [Shared.setQueue, update_of_ne hq, hH q' hq, hM q' hq] using this

/-- The same, with the messages as they were. -/
theorem Inv.setQueue (h : Inv s l H R M D) {m v : MessageQueue α} (hm : s.mq q = some m)
    {b : List α} (hb : s.pushed q = s.taken q ++ b) {G N : Multiset ℕ}
    (hH : ∀ q' ≠ q, G.count q' = H.count q') (hM : ∀ q' ≠ q, N.count q' = M.count q')
    (hlive : Live v b (s.slot · = some q) (s.ref q)
      (l.count q + G.count q) (R.count q) (N.count q) (D.count q)) :
    Inv (s.setQueue q v) l G R N D := by
  have hinv := h.set hm hH hM ⟨b, hb, hlive⟩
  rw [update_eq_self, update_eq_self] at hinv
  exact hinv

/-! ### The global list -/

theorem count_held (q q' : ℕ) (l : List ℕ) (H : Multiset ℕ) :
    l.count q' + (q ::ₘ H).count q' = (q :: l).count q' + H.count q' := by
  rw [count_cons, Multiset.count_cons]
  by_cases hq : q' = q
  · subst hq
    simp
    omega
  · simp [hq, Ne.symm hq]

theorem Inv.globalmqPush (h : Inv s l (q ::ₘ H) R M D) :
    ∃ s', s.globalmqPush q = some s' ∧ Inv s' (l ++ [q]) H R M D := by
  obtain ⟨m, hm⟩ := h.exists_mq (q := q) (by simp)
  have hql : q ∉ l := by
    obtain ⟨b, -, hlive⟩ := h.live hm
    have := hlive.once
    rw [Multiset.count_cons_self] at this
    exact count_eq_zero.mp (by omega)
  obtain ⟨Q, hpush, hlists⟩ := h.lists.push hql
  refine ⟨{ s with Q := Q }, by rw [Shared.globalmqPush, hpush], hlists, h.fresh, fun q' => ?_⟩
  rw [(perm_append_singleton q l).count_eq, ← count_held]
  exact h.each q'

theorem Inv.globalmqPop (h : Inv s l H R M D) :
    (∃ s', s.globalmqPop = some (s', none) ∧ Inv s' l H R M D) ∨
    ∃ s' q l', s.globalmqPop = some (s', some q) ∧ Inv s' l' (q ::ₘ H) R M D := by
  obtain ⟨Q, hpop, hlists⟩ := h.lists.pop
  rcases l with _ | ⟨q, l⟩
  · refine .inl ⟨{ s with Q := Q }, ?_, hlists, h.fresh, h.each⟩
    rw [Shared.globalmqPop, hpop]
    rfl
  · refine .inr ⟨{ s with Q := Q }, q, l, ?_, hlists, h.fresh, fun q' => ?_⟩
    · rw [Shared.globalmqPop, hpop]
      rfl
    · rw [count_held]
      exact h.each q'

/-! ### The contexts -/

theorem Inv.handleGrab (h : Inv s l H R M D) {handle : ℕ} (hs : s.slot handle = some c) :
    Inv { s with ref := update s.ref c (s.ref c + 1) } l H (c ::ₘ R) M D := by
  refine ⟨h.lists, h.fresh, fun q => ?_⟩
  have hat := h.each q
  by_cases hq : q = c
  · subst hq
    cases hm : s.mq q with
    | none => rw [hm] at hat; exact absurd hs (hat.2.2 handle)
    | some m =>
      obtain ⟨b, hb, hlive⟩ := h.live hm
      obtain ⟨href, -, hrel⟩ := hlive.slot handle hs
      simp only [update_self, Multiset.count_cons_self]
      refine ⟨b, hb, { hlive with
        used := fun _ => hrel
        slot := fun h' hs' => ?_
        refs := ?_
        marked := fun hM => ?_ }⟩
      · obtain ⟨-, hh⟩ := hlive.slot h' hs'
        exact ⟨by omega, hh⟩
      · omega
      · have := hlive.marked hM
        omega
  · simpa [update_of_ne hq, Multiset.count_cons_of_ne hq] using hat

/-- The reference of a slot passes to a thread. -/
theorem Inv.handleRetire (h : Inv s l H R M D) {handle : ℕ} (hs : s.slot handle = some c) :
    Inv { s with slot := update s.slot handle none } l H (c ::ₘ R) M D := by
  refine ⟨h.lists, h.fresh, fun q => ?_⟩
  have hat := h.each q
  have hslot : ∀ h', update s.slot handle none h' = some q →
      h' ≠ handle ∧ s.slot h' = some q := by
    intro h' hs'
    by_cases hh : h' = handle
    · rw [hh, update_self] at hs'
      exact absurd hs' (by simp)
    · rw [update_of_ne hh] at hs'
      exact ⟨hh, hs'⟩
  cases hm : s.mq q with
  | none =>
    rw [hm] at hat
    have hq : q ≠ c := by
      rintro rfl
      exact hat.2.2 handle hs
    simp only [Multiset.count_cons_of_ne hq]
    exact ⟨hat.1, hat.2.1, fun h' hs' => hat.2.2 h' (hslot h' hs').2⟩
  | some m =>
    obtain ⟨b, hb, hlive⟩ := h.live hm
    refine ⟨b, hb, ?_⟩
    by_cases hq : q = c
    · subst hq
      obtain ⟨href, hhandle, hrel⟩ := hlive.slot handle hs
      rw [Multiset.count_cons_self]
      refine { hlive with used := fun _ => hrel, slot := fun h' hs' => ?_, refs := href }
      -- The context was in no other slot.
      obtain ⟨hne, hs'⟩ := hslot h' hs'
      exact absurd ((hlive.slot h' hs').2.1.symm.trans hhandle) hne
    · rw [Multiset.count_cons_of_ne hq]
      exact { hlive with slot := fun h' hs' => hlive.slot h' (hslot h' hs').2 }

/-- A reference is given up; the last one is followed by the mark. -/
theorem Inv.contextRelease (h : Inv s l H (c ::ₘ R) M D) :
    Inv { s with ref := update s.ref c (s.ref c - 1) } l H R
      (if s.ref c - 1 = 0 then c ::ₘ M else M) D := by
  refine ⟨h.lists, h.fresh, fun q => ?_⟩
  have hat := h.each q
  by_cases hq : q = c
  · subst hq
    obtain ⟨m, hm⟩ := h.exists_mq (q := q) (by simp)
    obtain ⟨b, hb, hlive⟩ := h.live hm
    rw [Multiset.count_cons_self] at hlive
    have href := hlive.refs
    have hrel := hlive.used (by omega)
    have hM : M.count q = 0 := by
      by_contra hne
      have := hlive.marked (Nat.pos_of_ne_zero hne)
      omega
    simp only [hm, update_self]
    refine ⟨b, hb, { hlive with
      used := fun _ => hrel
      slot := fun h' hs' => ?_
      refs := ?_
      marked := ?_ }⟩
    · have := hlive.slot h' hs'
      exact ⟨by omega, this.2⟩
    · omega
    · split
      · next h0 =>
          rw [Multiset.count_cons_self, hM]
          exact fun _ => ⟨h0, le_refl _⟩
      · intro hpos
        omega
  · have hM : (if s.ref c - 1 = 0 then c ::ₘ M else M).count q = M.count q := by
      split
      · exact Multiset.count_cons_of_ne hq M
      · rfl
    simpa [update_of_ne hq, Multiset.count_cons_of_ne hq, hM] using hat

/-- A context without references is marked; a queue nobody has goes to the global list. -/
theorem Inv.mqMarkRelease (h : Inv s l H R (c ::ₘ M) D) :
    ∃ s' l', s.mqMarkRelease c = some s' ∧ Inv s' l' H R M D := by
  obtain ⟨m, hm⟩ := h.exists_mq (q := c) (by simp)
  obtain ⟨b, hb, hlive⟩ := h.live hm
  rw [Multiset.count_cons_self] at hlive
  have hrel := hlive.used (by omega)
  obtain ⟨href, hM⟩ := hlive.marked (by omega)
  have hR : R.count c = 0 := by
    have := hlive.refs
    omega
  have hM' : M.count c = 0 := by omega
  have hslot : ∀ h', ¬ s.slot h' = some c := by
    intro h' hs'
    have := (hlive.slot h' hs').1
    omega
  simp only [Shared.mqMarkRelease, hm, hrel, Bool.false_eq_true, if_false]
  rcases Bool.eq_false_or_eq_true m.inGlobal with hglob | hglob
  · refine ⟨_, l, if_pos hglob, h.setQueue hm hb (fun _ _ => rfl)
      (fun q' hq' => (Multiset.count_cons_of_ne hq' M).symm) { hlive with
        holds := hlive.holds.congr rfl rfl rfl rfl
        owned := fun _ => .inr rfl
        used := fun hpos => by omega
        slot := fun h' hs' => absurd hs' (hslot h')
        marked := fun hpos => by omega
        doomed := fun _ => rfl }⟩
  · have hO : l.count c + H.count c = 0 := hlive.owners hglob hrel
    have hinv : Inv (s.setQueue c { m with release := true }) l (c ::ₘ H) R M D :=
      h.setQueue hm hb (fun q' hq' => Multiset.count_cons_of_ne hq' H)
        (fun q' hq' => (Multiset.count_cons_of_ne hq' M).symm) { hlive with
          holds := hlive.holds.congr rfl rfl rfl rfl
          once := by rw [Multiset.count_cons_self]; omega
          owned := fun _ => .inr rfl
          placed := fun _ => by rw [Multiset.count_cons_self]; omega
          used := fun hpos => by omega
          slot := fun h' hs' => absurd hs' (hslot h')
          marked := fun hpos => by omega
          doomed := fun _ => rfl }
    obtain ⟨s', hs', hinv'⟩ := hinv.globalmqPush
    exact ⟨s', _, (if_neg (by simp [hglob])).trans hs', hinv'⟩

/-- `skynet_context_new`: the thread holds the queue and has a reference; the slot has the other. -/
theorem Inv.contextNew (h : Inv s l H R M D) {handle : ℕ} {s' : Shared α}
    (hs : s.contextNew handle = some s') :
    Inv s' l (s.created ::ₘ H) (s.created ::ₘ R) M D := by
  rw [Shared.contextNew] at hs
  split at hs
  · next hfree =>
      obtain rfl := some.inj hs
      have hnone : s.mq s.created = none := by
        cases hm : s.mq s.created with
        | none => rfl
        | some m => exact absurd (h.fresh _ m hm) (lt_irrefl _)
      have hat := h.each s.created
      rw [hnone] at hat
      obtain ⟨hlog, hzero, hslots⟩ := hat
      refine ⟨h.lists, fun q m hm => ?_, fun q => ?_⟩
      · by_cases hq : q = s.created
        · exact hq ▸ Nat.lt_succ_self _
        · have := h.fresh q m (by simpa [Shared.setQueue, hq] using hm)
          exact Nat.lt_succ_of_lt this
      · by_cases hq : q = s.created
        · subst hq
          simp only [Shared.setQueue, update_self, Multiset.count_cons_self]
          refine ⟨[], by rw [hlog, append_nil], MessageQueue.holds_create handle, by omega,
            fun _ => .inl rfl, fun _ => by omega, fun _ => rfl, fun _ => rfl,
            fun h' hs' => ?_, by omega, fun hpos => by omega, fun hpos => by omega⟩
          refine ⟨by omega, ?_, rfl⟩
          change handle = h'
          by_contra hne
          rw [update_of_ne (Ne.symm hne)] at hs'
          exact hslots h' hs'
        · have hslot : ∀ h', (update s.slot handle (some s.created) h' = some q ↔
              s.slot h' = some q) := by
            intro h'
            by_cases hh : h' = handle
            · subst hh
              rw [update_self, hfree]
              simp [Ne.symm hq]
            · rw [update_of_ne hh]
          have := h.each q
          simpa [Shared.setQueue, update_of_ne hq, Multiset.count_cons_of_ne hq, hslot]
            using this
  · exact absurd hs (by simp)

/-! ### The messages -/

theorem Inv.mqPush (h : Inv s l H (c ::ₘ R) M D) (message : α) :
    ∃ s' l', s.mqPush c message = some s' ∧ Inv s' l' H (c ::ₘ R) M D := by
  obtain ⟨m, hm⟩ := h.exists_mq (q := c) (by simp)
  obtain ⟨b, hb, hlive⟩ := h.live hm
  have hrel : m.release = false := hlive.used (by rw [Multiset.count_cons_self]; omega)
  have hb' : s.pushed c ++ [message] = s.taken c ++ (b ++ [message]) := by
    rw [hb, List.append_assoc]
  rw [Shared.mqPush, hm]
  simp only [MessageQueue.append_inGlobal]
  cases hglob : m.inGlobal with
  | true =>
    have hinv := h.set (v := m.append message) (t := s.taken c) hm (fun _ _ => rfl) (fun _ _ => rfl)
      ⟨b ++ [message], hb', { hlive with
        holds := hlive.holds.append message
        owned := by simpa using hlive.owned
        placed := by simpa using hlive.placed
        quiet := fun hg => by simp [hglob] at hg
        used := by simpa using hlive.used
        slot := by simpa using hlive.slot
        doomed := by simpa using hlive.doomed }⟩
    rw [update_eq_self] at hinv
    exact ⟨_, l, if_neg (by decide), hinv⟩
  | false =>
    have hO : l.count c + H.count c = 0 := hlive.owners hglob hrel
    have hinv := h.set (v := { m.append message with inGlobal := true }) (t := s.taken c)
      (G := c ::ₘ H) hm (fun q' hq' => Multiset.count_cons_of_ne hq' H) (fun _ _ => rfl)
      ⟨b ++ [message], hb', { hlive with
        holds := (hlive.holds.append message).congr rfl rfl rfl rfl
        once := by rw [Multiset.count_cons_self]; omega
        owned := fun _ => .inl rfl
        placed := fun _ => by rw [Multiset.count_cons_self]; omega
        quiet := fun hg => by simp at hg
        used := by simpa using hlive.used
        slot := by simpa using hlive.slot
        doomed := by simpa using hlive.doomed }⟩
    rw [update_eq_self] at hinv
    obtain ⟨s', hs', hinv'⟩ := hinv.globalmqPush
    exact ⟨s', _, (if_pos rfl).trans hs', hinv'⟩

/-- A held queue is popped: a message leaves it, or it is empty and let go. -/
theorem Inv.mqPop (h : Inv s l (q ::ₘ H) R M D) :
    (∃ s', s.mqPop q = some (s', true) ∧ Inv s' l (q ::ₘ H) R M D) ∨
    ∃ s', s.mqPop q = some (s', false) ∧ Inv s' l H R M D ∧ s'.pushed q = s'.taken q := by
  obtain ⟨m, hm⟩ := h.exists_mq (q := q) (by simp)
  obtain ⟨b, hb, hlive⟩ := h.live hm
  rw [Shared.mqPop, hm]
  rcases b with _ | ⟨x, b⟩
  · simp only [hlive.holds.pop_nil]
    refine .inr ⟨_, rfl, ?_, by rw [append_nil] at hb; exact hb⟩
    have hO := hlive.once
    rw [Multiset.count_cons_self] at hO
    exact h.setQueue hm hb (fun q' hq' => (Multiset.count_cons_of_ne hq' H).symm) (fun _ _ => rfl)
      { hlive with
        holds := hlive.holds.congr rfl rfl rfl rfl
        once := by omega
        owned := fun hpos => by omega
        placed := (nomatch ·)
        quiet := fun _ => rfl }
  · obtain ⟨hcell, hholds, hglob⟩ := hlive.holds.pop
    have hpop : m.pop = (m.pop.1, some (some x)) := by rw [← hcell]
    simp only []
    rw [hpop]
    have hinv := h.set (v := m.pop.1) (p := s.pushed q) (t := s.taken q ++ [x]) hm (fun _ _ => rfl)
      (fun _ _ => rfl) ⟨b, by rw [hb, List.append_assoc]; rfl, { hlive with
        holds := hholds
        owned := by simpa only [hglob, MessageQueue.pop_release] using hlive.owned
        placed := by simpa only [hglob] using hlive.placed
        quiet := fun hg => absurd (hlive.quiet (hglob ▸ hg)) (cons_ne_nil x b)
        used := by simpa using hlive.used
        slot := by simpa using hlive.slot
        doomed := by simpa using hlive.doomed }⟩
    rw [update_eq_self] at hinv
    exact .inl ⟨_, rfl, hinv⟩

/-- A held queue is given up, or is to be freed. -/
theorem Inv.mqRelease (h : Inv s l (q ::ₘ H) R M D) :
    (s.mqRelease q = some (s, true) ∧ Inv s l (q ::ₘ H) R M (q ::ₘ D)) ∨
    ∃ s' l', s.mqRelease q = some (s', false) ∧ Inv s' l' H R M D := by
  obtain ⟨m, hm⟩ := h.exists_mq (q := q) (by simp)
  rw [Shared.mqRelease, hm]
  cases hrel : m.release with
  | true =>
    refine .inl ⟨if_pos hrel, h.lists, h.fresh, fun q' => ?_⟩
    by_cases hq : q' = q
    · subst hq
      obtain ⟨b, hb, hlive⟩ := h.live hm
      rw [hm]
      exact ⟨b, hb, { hlive with doomed := fun _ => hrel }⟩
    · rw [Multiset.count_cons_of_ne hq D]
      exact h.each q'
  | false =>
    obtain ⟨s', hs', hinv⟩ := h.globalmqPush
    refine .inr ⟨s', _, ?_, hinv⟩
    simp only [hrel, hs']
    rfl

theorem Inv.dropQueue (h : Inv s l (q ::ₘ H) R M (q ::ₘ D)) (hD : D ≤ H) :
    (∃ s', s.dropQueue q = some (s', false) ∧ Inv s' l (q ::ₘ H) R M (q ::ₘ D)) ∨
    ∃ s', s.dropQueue q = some (s', true) ∧ Inv s' l H R M D := by
  have hO : l.count q + H.count q = 0 := by
    obtain ⟨m, hm⟩ := h.exists_mq (q := q) (by simp)
    obtain ⟨b, -, hlive⟩ := h.live hm
    have := hlive.once
    rw [Multiset.count_cons_self] at this
    omega
  rw [Shared.dropQueue]
  rcases h.mqPop with ⟨s', hs', hinv⟩ | ⟨s', hs', hinv, hlog⟩
  · exact .inl ⟨s', by rw [hs'], hinv⟩
  · obtain ⟨m, hm⟩ := hinv.exists_mq (q := q) (by simp)
    obtain ⟨b, -, hlive⟩ := hinv.live hm
    have hrel := hlive.doomed (by rw [Multiset.count_cons_self]; omega)
    have hused : R.count q + M.count q = 0 := by
      by_contra hne
      have := hlive.used (Nat.pos_of_ne_zero hne)
      simp [hrel] at this
    have hslot : ∀ h', ¬ s'.slot h' = some q := by
      intro h' hs
      have := (hlive.slot h' hs).2.2
      simp [hrel] at this
    have hDq : D.count q = 0 := by
      have := Multiset.count_le_of_le q hD
      omega
    have hnext : s'.Q.next q = none := hinv.lists.off q (count_eq_zero.mp (by omega))
    refine .inr ⟨{ s' with mq := update s'.mq q none }, ?_, hinv.lists, ?_, fun q' => ?_⟩
    · rw [hs']
      simp only [Shared.release, hnext, if_true]
    · intro q' m' hm'
      by_cases hq : q' = q
      · subst hq
        simp at hm'
      · exact hinv.fresh q' m' (by simpa [hq] using hm')
    · by_cases hq : q' = q
      · subst hq
        simp only [update_self]
        exact ⟨hlog, by omega, hslot⟩
      · have := hinv.each q'
        simpa [update_of_ne hq, Multiset.count_cons_of_ne hq] using this

theorem Inv.takeOverload (h : Inv s l H R M D) {m : MessageQueue α} (hm : s.mq q = some m) :
    Inv (s.setQueue q m.takeOverload.1) l H R M D := by
  obtain ⟨b, hb, hlive⟩ := h.live hm
  have hcase : m.takeOverload.1 = m ∨ m.takeOverload.1 = { m with overload := 0 } := by
    rw [MessageQueue.takeOverload]
    split
    · exact .inr rfl
    · exact .inl rfl
  refine h.setQueue hm hb (fun _ _ => rfl) (fun _ _ => rfl) ?_
  rcases hcase with heq | heq <;> rw [heq]
  · exact hlive
  · exact { hlive with holds := hlive.holds.congr rfl rfl rfl rfl }

end Rules

/-! ### A step of a thread -/

section Step
variable {s : Shared α} {l : List ℕ} {H R M D : Multiset ℕ} {c : ℕ} {k : Thread}

/-- What a thread at `t` adds to what the others hold, refer to and so on. -/
def InvWith (s : Shared α) (l : List ℕ) (t : Thread) (H R M D : Multiset ℕ) : Prop :=
  Inv s l (t.held + H) (t.refs + R) (t.marks + M) (t.drops + D)

theorem releaseContext_inv (h : Inv s l (k.held + H) (c ::ₘ (k.refs + R)) (k.marks + M) (k.drops + D)) :
    InvWith (releaseContext s c k).1 l (releaseContext s c k).2 H R M D := by
  have hinv := h.contextRelease
  rw [releaseContext, Shared.contextRelease]
  rcases Nat.eq_zero_or_pos (s.ref c - 1) with h0 | hpos
  · rw [if_pos h0] at hinv
    simpa [h0, InvWith] using hinv
  · rw [if_neg (by omega)] at hinv
    have hne : (s.ref c - 1 == 0) = false := by simpa using (by omega : s.ref c - 1 ≠ 0)
    simpa only [hne, InvWith] using hinv

theorem retireHandle_inv (h : InvWith s l k H R M D) (handle : ℕ) :
    InvWith (retireHandle s handle k).1 l (retireHandle s handle k).2 H R M D := by
  rw [retireHandle, Shared.handleRetire]
  cases hs : s.slot handle with
  | some c =>
    have hinv := Inv.handleRetire h hs
    simpa [InvWith] using hinv
  | none =>
    have heq : update s.slot handle none = s.slot := by
      rw [← hs, update_eq_self]
    rw [heq]
    exact h

theorem fetchQueue_inv (h : Inv s l H R M D) :
    ∃ s' t l', fetchQueue s = some (s', t) ∧ InvWith s' l' t H R M D := by
  rcases h.globalmqPop with ⟨s', hs', hinv⟩ | ⟨s', q, l', hs', hinv⟩
  · refine ⟨s', .loop none, l, by rw [fetchQueue, hs'], ?_⟩
    simpa [InvWith] using hinv
  · refine ⟨s', .loop (some q), l', by rw [fetchQueue, hs'], ?_⟩
    simpa [InvWith] using hinv

/-- What a thread ends in, if a step returns it. -/
theorem inv_of_some {s' : Shared α} {l' : List ℕ} {t' : Thread} {r : Shared α × Thread}
    (h : InvWith s' l' t' H R M D) (hs : some (s', t') = some r) : ∃ l', InvWith r.1 l' r.2 H R M D := by
  obtain rfl := some.inj hs
  exact ⟨l', h⟩

/-- A worker takes a message, or puts its queue behind the next one. -/
theorem dispatching_inv (weight : ℤ) {q i n : ℕ} {r : Shared α × Thread}
    (h : InvWith s l (.dispatching q c i n) H R M D)
    (hs : advance weight s (.dispatching q c i n) (.next : Action α) = some r) :
    ∃ l', InvWith r.1 l' r.2 H R M D := by
  have h' : Inv s l (q ::ₘ H) (c ::ₘ R) M D := by simpa [InvWith] using h
  unfold advance at hs
  dsimp only at hs
  split at hs
  · rcases h'.mqPop with ⟨s₁, hs₁, hinv⟩ | ⟨s₁, hs₁, hinv, -⟩
    · rw [hs₁] at hs
      exact inv_of_some (by simpa [InvWith] using hinv) hs
    · rw [hs₁] at hs
      exact inv_of_some (by simpa [InvWith] using hinv) hs
  · split at hs
    · rcases h'.globalmqPop with ⟨s₁, hs₁, hinv⟩ | ⟨s₁, nq, l₁, hs₁, hinv⟩
      · rw [hs₁] at hs
        exact inv_of_some (by simpa [InvWith] using hinv) hs
      · rw [hs₁] at hs
        rw [Multiset.cons_swap] at hinv
        exact inv_of_some (by simpa [InvWith] using hinv) hs
    · exact nomatch hs

/-- **A step of a thread** keeps the invariant, whatever the others hold. -/
theorem advance_inv {weight : ℤ} {t : Thread} {a : Action α} {r : Shared α × Thread}
    (h : InvWith s l t H R M D) (hD : D ≤ H) (hs : advance weight s t a = some r) :
    ∃ l', InvWith r.1 l' r.2 H R M D := by
  unfold advance at hs
  split at hs
  · -- A context is grabbed.
    next handle =>
      cases hslot : s.slot handle with
      | some c =>
        simp only [Shared.handleGrab, hslot] at hs
        exact inv_of_some (by simpa [InvWith] using Inv.handleGrab h hslot) hs
      | none =>
        simp only [Shared.handleGrab, hslot] at hs
        exact inv_of_some h hs
  · next c message =>
      have h' : Inv s l H (c ::ₘ R) M D := by simpa [InvWith] using h
      obtain ⟨s₁, l₁, hs₁, hinv⟩ := h'.mqPush message
      rw [hs₁] at hs
      exact inv_of_some (by simpa [InvWith] using hinv) hs
  · next c =>
      exact inv_of_some (releaseContext_inv (by simpa [InvWith] using h)) hs
  · next handle =>
      exact inv_of_some (retireHandle_inv h handle) hs
  · -- A service is created, and initialised or not.
    next handle =>
      cases hnew : s.contextNew handle with
      | none => rw [hnew] at hs; exact nomatch hs
      | some s₁ =>
        rw [hnew] at hs
        exact inv_of_some (by simpa [InvWith] using Inv.contextNew h hnew) hs
  · next handle c =>
      exact inv_of_some (releaseContext_inv (by simpa [InvWith] using h)) hs
  · next handle c =>
      exact inv_of_some (releaseContext_inv (by simpa [InvWith] using h)) hs
  · next q =>
      have h' : Inv s l (q ::ₘ H) R M D := by simpa [InvWith] using h
      obtain ⟨s₁, hs₁, hinv⟩ := h'.globalmqPush
      rw [hs₁] at hs
      exact inv_of_some (by simpa [InvWith] using hinv) hs
  · -- A context is released, and deleted.
    next c k =>
      exact inv_of_some (releaseContext_inv (by simpa [InvWith] using h)) hs
  · next c k =>
      have h' : Inv s l (k.held + H) (k.refs + R) (c ::ₘ (k.marks + M)) (k.drops + D) := by
        simpa [InvWith] using h
      obtain ⟨s₁, l₁, hs₁, hinv⟩ := h'.mqMarkRelease
      rw [hs₁] at hs
      exact inv_of_some hinv hs
  · next handle k =>
      exact inv_of_some (retireHandle_inv (k := k) (by simpa [InvWith] using h) handle) hs
  · -- A queue is given up, or dropped.
    next q k =>
      have h' : Inv s l (q ::ₘ (k.held + H)) (k.refs + R) (k.marks + M) (k.drops + D) := by
        simpa [InvWith] using h
      rcases h'.mqRelease with ⟨hs₁, hinv⟩ | ⟨s₁, l₁, hs₁, hinv⟩
      · rw [hs₁] at hs
        exact inv_of_some (by simpa [InvWith] using hinv) hs
      · rw [hs₁] at hs
        exact inv_of_some hinv hs
  · next q k =>
      have h' : Inv s l (q ::ₘ (k.held + H)) (k.refs + R) (k.marks + M) (q ::ₘ (k.drops + D)) := by
        simpa [InvWith] using h
      rcases h'.dropQueue (add_le_add k.drops_le_held hD) with ⟨s₁, hs₁, hinv⟩ | ⟨s₁, hs₁, hinv⟩
      · rw [hs₁] at hs
        exact inv_of_some (by simpa [InvWith] using hinv) hs
      · rw [hs₁] at hs
        exact inv_of_some hinv hs
  · obtain ⟨s₁, t, l₁, hs₁, hinv⟩ := fetchQueue_inv (by simpa [InvWith] using h)
    rw [hs₁] at hs
    exact inv_of_some hinv hs
  · obtain ⟨s₁, t, l₁, hs₁, hinv⟩ := fetchQueue_inv (by simpa [InvWith] using h)
    rw [hs₁] at hs
    exact inv_of_some hinv hs
  · -- A worker has a queue, and grabs the context of its handle.
    next q =>
      cases hm : s.mq q with
      | none => rw [hm] at hs; exact nomatch hs
      | some m =>
        cases hslot : s.slot m.handle with
        | some c =>
          simp only [hm, Shared.handleGrab, hslot] at hs
          exact inv_of_some (by simpa [InvWith] using Inv.handleGrab h hslot) hs
        | none =>
          simp only [hm, Shared.handleGrab, hslot] at hs
          exact inv_of_some (by simpa [InvWith] using h) hs
  · exact dispatching_inv weight h hs
  · next q c i n =>
      cases hm : s.mq q with
      | none => rw [hm] at hs; exact nomatch hs
      | some m =>
        rw [hm] at hs
        exact inv_of_some (by simpa [InvWith] using Inv.takeOverload h hm) hs
  · next q c nq =>
      have h' : Inv s l (q ::ₘ nq ::ₘ H) (c ::ₘ R) M D := by simpa [InvWith] using h
      obtain ⟨s₁, hs₁, hinv⟩ := h'.globalmqPush
      rw [hs₁] at hs
      exact inv_of_some (by simpa [InvWith] using hinv) hs
  · exact nomatch hs

/-- The threads that wait for an action, and those that fail `assert(q == ctx->queue)`: their context
got the handle of one that was retired. -/
inductive Waits : Thread → Prop where
  | grabbed (c : ℕ) : Waits (.grabbed c)
  | launching (handle c : ℕ) : Waits (.launching handle c)
  | dispatching {q c i n : ℕ} (hi : ¬ i < n) (hq : q ≠ c) : Waits (.dispatching q c i n)

/-- **No other assertion fails**, and no queue is used after it is freed. -/
theorem advance_next {t : Thread} (h : InvWith s l t H R M D) (hD : D ≤ H) (ht : ¬ Waits t)
    (weight : ℤ) : ∃ r, advance weight s t .next = some r := by
  cases t with
  | grabbed c => exact absurd (.grabbed c) ht
  | launching handle c => exact absurd (.launching handle c) ht
  | loop q =>
    cases q with
    | none =>
      obtain ⟨s₁, t, l₁, hs₁, -⟩ := fetchQueue_inv (by simpa [InvWith] using h)
      exact ⟨_, hs₁⟩
    | some q =>
      obtain ⟨m, hm⟩ := Inv.exists_mq h (q := q) (by simp)
      cases hslot : s.slot m.handle with
      | some c => exact ⟨_, by simp only [advance, hm, Shared.handleGrab, hslot]; rfl⟩
      | none => exact ⟨_, by simp only [advance, hm, Shared.handleGrab, hslot]; rfl⟩
  | fetch =>
    obtain ⟨s₁, t, l₁, hs₁, -⟩ := fetchQueue_inv (by simpa [InvWith] using h)
    exact ⟨_, hs₁⟩
  | releasing c k => exact ⟨_, rfl⟩
  | deleting c k =>
    have h' : Inv s l (k.held + H) (k.refs + R) (c ::ₘ (k.marks + M)) (k.drops + D) := by
      simpa [InvWith] using h
    obtain ⟨s₁, l₁, hs₁, -⟩ := h'.mqMarkRelease
    exact ⟨_, by rw [advance, hs₁]⟩
  | publishing q =>
    have h' : Inv s l (q ::ₘ H) R M D := by simpa [InvWith] using h
    obtain ⟨s₁, hs₁, -⟩ := h'.globalmqPush
    exact ⟨_, by rw [advance, hs₁]⟩
  | retiring handle k => exact ⟨_, rfl⟩
  | abandoning q k =>
    have h' : Inv s l (q ::ₘ (k.held + H)) (k.refs + R) (k.marks + M) (k.drops + D) := by
      simpa [InvWith] using h
    rcases h'.mqRelease with ⟨hs₁, -⟩ | ⟨s₁, l₁, hs₁, -⟩
    · exact ⟨_, by rw [advance, hs₁]⟩
    · exact ⟨_, by rw [advance, hs₁]⟩
  | dropping q k =>
    have h' : Inv s l (q ::ₘ (k.held + H)) (k.refs + R) (k.marks + M) (q ::ₘ (k.drops + D)) := by
      simpa [InvWith] using h
    rcases h'.dropQueue (add_le_add k.drops_le_held hD) with ⟨s₁, hs₁, -⟩ | ⟨s₁, hs₁, -⟩
    · exact ⟨_, by rw [advance, hs₁]⟩
    · exact ⟨_, by rw [advance, hs₁]⟩
  | dispatching q c i n =>
    have h' : Inv s l (q ::ₘ H) (c ::ₘ R) M D := by simpa [InvWith] using h
    by_cases hi : i < n
    · rcases h'.mqPop with ⟨s₁, hs₁, -⟩ | ⟨s₁, hs₁, -, -⟩
      · exact ⟨_, by rw [advance, if_pos hi, hs₁]⟩
      · exact ⟨_, by rw [advance, if_pos hi, hs₁]⟩
    · have hq : q = c := by
        by_contra hne
        exact ht (.dispatching hi hne)
      rcases h'.globalmqPop with ⟨s₁, hs₁, -⟩ | ⟨s₁, nq, l₁, hs₁, -⟩
      · exact ⟨_, by rw [advance, if_neg hi, if_pos hq, hs₁]⟩
      · exact ⟨_, by rw [advance, if_neg hi, if_pos hq, hs₁]⟩
  | popped q c i n =>
    obtain ⟨m, hm⟩ := Inv.exists_mq h (q := q) (by simp)
    exact ⟨_, by rw [advance, hm]⟩
  | pushingBack q c nq =>
    have h' : Inv s l (q ::ₘ nq ::ₘ H) (c ::ₘ R) M D := by simpa [InvWith] using h
    obtain ⟨s₁, hs₁, -⟩ := h'.globalmqPush
    exact ⟨_, by rw [advance, hs₁]⟩

/-- The actions that a thread can take where it is. -/
inductive Open (s : Shared α) : Thread → Action α → Prop where
  | grab (handle : ℕ) : Open s (.loop none) (.grab handle)
  | push (c : ℕ) (message : α) : Open s (.grabbed c) (.push message)
  | release (c : ℕ) : Open s (.grabbed c) .release
  | retire (handle : ℕ) : Open s (.loop none) (.retire handle)
  | launch {handle : ℕ} (free : s.slot handle = none) : Open s (.loop none) (.launch handle)
  | initialise (handle c : ℕ) (ok : Bool) : Open s (.launching handle c) (.initialise ok)
  | next {t : Thread} (ht : ¬ Waits t) : Open s t .next

theorem Waits.advance_none {t : Thread} (ht : Waits t) (weight : ℤ) (s : Shared α) :
    advance weight s t .next = none := by
  cases ht with
  | grabbed c => rfl
  | launching handle c => rfl
  | dispatching hi hq => rw [advance, if_neg hi, if_neg hq]

/-- A step that is taken was open. -/
theorem Open.of_advance {weight : ℤ} {t : Thread} {a : Action α} {r : Shared α × Thread}
    (hr : advance weight s t a = some r) : Open s t a := by
  cases a with
  | next =>
    refine .next fun ht => ?_
    rw [ht.advance_none] at hr
    cases hr
  | grab handle =>
    cases t with
    | loop q => cases q with
      | none => exact .grab handle
      | some q => simp [advance] at hr
    | _ => simp [advance] at hr
  | push message => cases t with
    | grabbed c => exact .push c message
    | _ => simp [advance] at hr
  | release => cases t with
    | grabbed c => exact .release c
    | _ => simp [advance] at hr
  | retire handle => cases t with
    | loop q => cases q with
      | none => exact .retire handle
      | some q => simp [advance] at hr
    | _ => simp [advance] at hr
  | launch handle => cases t with
    | loop q => cases q with
      | none =>
        refine .launch ?_
        by_contra hslot
        simp [advance, Shared.contextNew, hslot] at hr
      | some q => simp [advance] at hr
    | _ => simp [advance] at hr
  | initialise ok => cases t with
    | launching handle c => exact .initialise handle c ok
    | _ => cases ok <;> simp [advance] at hr

/-- **An open step is taken**, whatever the others hold. -/
theorem Open.advance {t : Thread} {a : Action α} (ho : Open s t a) (h : InvWith s l t H R M D)
    (hD : D ≤ H) (weight : ℤ) : ∃ r, advance weight s t a = some r := by
  cases ho with
  | grab handle =>
    cases hslot : s.slot handle with
    | some c => exact ⟨_, by simp only [SkynetMq.advance, Shared.handleGrab, hslot]; rfl⟩
    | none => exact ⟨_, by simp only [SkynetMq.advance, Shared.handleGrab, hslot]; rfl⟩
  | push c message =>
    have h' : Inv s l H (c ::ₘ R) M D := by simpa [InvWith] using h
    obtain ⟨s₁, l₁, hs₁, -⟩ := h'.mqPush message
    exact ⟨_, by rw [SkynetMq.advance, hs₁]⟩
  | release c => exact ⟨_, rfl⟩
  | retire handle => exact ⟨_, rfl⟩
  | launch free => exact ⟨_, by rw [SkynetMq.advance, Shared.contextNew, if_pos free]⟩
  | initialise handle c ok => cases ok <;> exact ⟨_, rfl⟩
  | next ht => exact advance_next h hD ht weight

end Step

/-! ### A run -/

/-- What all threads hold, refer to and so on. -/
def total (f : Thread → Multiset ℕ) (ts : List Thread) : Multiset ℕ := (ts.map f).sum

theorem total_append_cons (f : Thread → Multiset ℕ) (ts us : List Thread) (t : Thread) :
    total f (ts ++ t :: us) = f t + total f (ts ++ us) := by
  simp only [total, map_append, map_cons, List.sum_append, sum_cons]
  exact add_left_comm _ _ _

theorem total_drops_le (ts : List Thread) : total Thread.drops ts ≤ total Thread.held ts := by
  induction ts with
  | nil => exact le_refl _
  | cons t ts ih => simpa [total] using add_le_add t.drops_le_held ih

theorem count_total_eq_zero {f : Thread → Multiset ℕ} {ts : List Thread} {q : ℕ} :
    (total f ts).count q = 0 ↔ ∀ t ∈ ts, q ∉ f t := by
  induction ts with
  | nil => simp [total]
  | cons t ts ih =>
    have hsum : total f (t :: ts) = f t + total f ts := by simp [total]
    rw [hsum, Multiset.count_add, Nat.add_eq_zero_iff, ih, forall_mem_cons,
      Multiset.count_eq_zero]

/-- The invariant of the process. -/
def ProcessInv (p : Process α) : Prop :=
  ∃ l, Inv p.shared l (total Thread.held p.threads) (total Thread.refs p.threads)
    (total Thread.marks p.threads) (total Thread.drops p.threads)

theorem processInv_start (n : ℕ) : ProcessInv (start α n) := by
  have hzero : ∀ f : Thread → Multiset ℕ, f (.loop none) = 0 →
      total f (List.replicate n (.loop none)) = 0 := by
    intro f hf
    simp [total, hf]
  refine ⟨[], ?_⟩
  simp only [start]
  rw [hzero _ rfl, hzero _ rfl, hzero _ rfl, hzero _ rfl]
  exact inv_init

theorem ProcessInv.thread {p : Process α} (h : ProcessInv p) {ts us : List Thread} {t : Thread}
    (hp : p.threads = ts ++ t :: us) :
    ∃ l, InvWith p.shared l t (total Thread.held (ts ++ us)) (total Thread.refs (ts ++ us))
      (total Thread.marks (ts ++ us)) (total Thread.drops (ts ++ us)) := by
  obtain ⟨l, hl⟩ := h
  refine ⟨l, ?_⟩
  simpa only [InvWith, hp, total_append_cons] using hl

theorem step_inv {weight : ℕ → ℤ} {p p' : Process α} {a : ℕ × Action α} (h : ProcessInv p)
    (hs : step weight p a = some p') : ProcessInv p' := by
  rw [step] at hs
  cases hi : p.threads[a.1]? with
  | none => rw [hi] at hs; exact nomatch hs
  | some t =>
    obtain ⟨hlt, hget⟩ := List.getElem?_eq_some_iff.mp hi
    have hp : p.threads = p.threads.take a.1 ++ t :: p.threads.drop (a.1 + 1) := by
      rw [← hget, getElem_cons_drop, take_append_drop]
    obtain ⟨l, hl⟩ := h.thread hp
    simp only [hi] at hs
    cases hadv : advance (weight a.1) p.shared t a.2 with
    | none => rw [hadv] at hs; exact nomatch hs
    | some r =>
      simp only [hadv] at hs
      obtain rfl := some.inj hs
      obtain ⟨l', hl'⟩ := advance_inv hl (total_drops_le _) hadv
      refine ⟨l', ?_⟩
      simpa only [InvWith, set_eq_take_cons_drop _ hlt, total_append_cons] using hl'

theorem run_inv {weight : ℕ → ℤ} {as : List (ℕ × Action α)} :
    ∀ {p p' : Process α}, ProcessInv p → run weight p as = some p' → ProcessInv p' := by
  induction as with
  | nil =>
    intro p p' h hs
    obtain rfl := some.inj hs
    exact h
  | cons a as ih =>
    intro p p' h hs
    rw [run] at hs
    cases hstep : step weight p a with
    | none => rw [hstep] at hs; exact nomatch hs
    | some p₁ =>
      rw [hstep] at hs
      exact ih (step_inv h hstep) hs

/-- A service is retired with a message left, while a worker has its queue. -/
def retiredService : List (ℕ × Action ℕ) :=
  [(0, .launch 1), (0, .initialise true), (0, .next),
    (1, .grab 1), (1, .push 7), (1, .push 8), (1, .release),
    (0, .next), (0, .next), (0, .next), (0, .next), (0, .next), (0, .next),
    (1, .retire 1), (1, .next), (1, .next),
    (0, .next), (0, .next), (0, .next), (0, .next)]

end SourceLibs.SkynetMq
