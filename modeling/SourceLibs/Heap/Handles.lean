import SourceLibs.Support.Compare
import SourceLibs.Support.Forest

/-!
# Heap — handles

What the callers of the mutable heaps know.  A handle is the address of a node.  A `Ledger` says
which heap each live handle is an element of; `Account` adds the values the callers wrote.  `Op` is a
call on one of the heaps, and `Account.Step` what a priority queue must make of it: it says nothing
of trees, and `pop` may take any largest element.

* `Counts`: the size of each heap is the number of its handles.
* `Trees`: the nodes of an account as heap-ordered trees, with one lemma for each way they change.
* `AllowedRun.invariant`, `AllowedRun.simulates`: from a step to a run.
-/

namespace SourceLibs.Handles
open Option Function Compare Forest

/-! ### The ledger -/

/-- The heap each live handle is an element of. -/
structure Ledger where
  /-- The address of the node allocated next. -/
  fresh : ℕ
  owner : ℕ → Option ℕ
  bound : ∀ n, fresh ≤ n → owner n = none

namespace Ledger

variable (l : Ledger)

/-- No handles. -/
def empty : Ledger := ⟨0, fun _ => none, fun _ _ => rfl⟩

/-- The handles of heap `i`. -/
def nodes (i : ℕ) : Finset ℕ := (Finset.range l.fresh).filter (l.owner · = some i)

/-- The live handles. -/
def live : Finset ℕ := (Finset.range l.fresh).filter (l.owner · ≠ none)

/-- A node is allocated for heap `i`. -/
def add (i : ℕ) : Ledger where
  fresh := l.fresh + 1
  owner := Function.update l.owner l.fresh (some i)
  bound n h := by
    rw [Function.update_of_ne (by omega)]
    exact l.bound n (by omega)

/-- The handle `n` is given up. -/
def drop (n : ℕ) : Ledger where
  fresh := l.fresh
  owner := Function.update l.owner n none
  bound m h := by
    rw [Function.update_apply]
    split
    · rfl
    · exact l.bound m h

/-- The handles of heap `j` become handles of heap `i`. -/
def absorb (i j : ℕ) : Ledger where
  fresh := l.fresh
  owner n := if l.owner n = some j then some i else l.owner n
  bound n h := by rw [l.bound n h, if_neg (by simp)]

variable {l} {i j n : ℕ}

theorem lt_fresh (h : l.owner n ≠ none) : n < l.fresh := by
  by_contra hn
  exact h (l.bound n (by omega))

@[simp] theorem mem_nodes : n ∈ l.nodes i ↔ l.owner n = some i := by
  rw [nodes, Finset.mem_filter, Finset.mem_range, and_iff_right_iff_imp]
  intro h
  exact lt_fresh (by simp [h])

@[simp] theorem mem_live : n ∈ l.live ↔ l.owner n ≠ none := by
  rw [live, Finset.mem_filter, Finset.mem_range, and_iff_right_iff_imp]
  exact lt_fresh

theorem owner_add (i n : ℕ) :
    (l.add i).owner n = if n = l.fresh then some i else l.owner n := update_apply ..

theorem owner_drop (n m : ℕ) : (l.drop n).owner m = if m = n then none else l.owner m :=
  update_apply ..

theorem nodes_add : (l.add i).nodes i = insert l.fresh (l.nodes i) := by
  ext n
  rw [Finset.mem_insert, mem_nodes, mem_nodes, owner_add]
  by_cases h : n = l.fresh <;> simp [h]

theorem nodes_add_of_ne (h : j ≠ i) : (l.add i).nodes j = l.nodes j := by
  ext n
  rw [mem_nodes, mem_nodes, owner_add]
  by_cases hn : n = l.fresh
  · simp [hn, l.bound l.fresh le_rfl, h.symm]
  · simp [hn]

theorem nodes_drop : (l.drop n).nodes i = (l.nodes i).erase n := by
  ext m
  rw [Finset.mem_erase, mem_nodes, mem_nodes, owner_drop]
  by_cases h : m = n <;> simp [h]

theorem owner_absorb (i j n k : ℕ) : (l.absorb i j).owner n = some k ↔
    (l.owner n = some j ∧ i = k) ∨ (l.owner n ≠ some j ∧ l.owner n = some k) := by
  rw [absorb]
  by_cases hn : l.owner n = some j <;> simp [hn]

theorem nodes_absorb : (l.absorb i j).nodes i = l.nodes i ∪ l.nodes j := by
  ext n
  rw [Finset.mem_union, mem_nodes, mem_nodes, mem_nodes, absorb]
  by_cases hn : l.owner n = some j <;> simp [hn]

theorem absorb_of_empty (h : l.nodes j = ∅) : l.absorb i j = l := by
  obtain ⟨fresh, owner, bound⟩ := l
  rw [absorb, mk.injEq]
  refine ⟨rfl, funext fun n => if_neg fun hn => ?_⟩
  exact Finset.notMem_empty n (h ▸ mem_nodes.mpr hn)

theorem nodes_absorb_right (h : i ≠ j) : (l.absorb i j).nodes j = ∅ := by
  ext n
  rw [mem_nodes, absorb]
  by_cases hn : l.owner n = some j <;> simp [hn, h]

theorem nodes_absorb_of_ne {k : ℕ} (hi : k ≠ i) (hj : k ≠ j) :
    (l.absorb i j).nodes k = l.nodes k := by
  ext n
  rw [mem_nodes, mem_nodes, absorb]
  by_cases hn : l.owner n = some j <;> simp [hn, hi.symm, hj.symm]

end Ledger

/-- The size kept for each heap is the number of its handles. -/
def Counts (l : Ledger) (size : ℕ → ℕ) : Prop := ∀ i, size i = (l.nodes i).card

namespace Counts

variable {l : Ledger} {size : ℕ → ℕ}

theorem add (h : Counts l size) (i : ℕ) :
    Counts (l.add i) (Function.update size i (size i + 1)) := by
  intro j
  by_cases hj : j = i
  · subst hj
    rw [update_self, Ledger.nodes_add, Finset.card_insert_of_notMem, h j]
    simp [l.bound l.fresh le_rfl]
  · rw [update_of_ne hj, Ledger.nodes_add_of_ne hj, h j]

theorem drop (h : Counts l size) {i n : ℕ} (hn : l.owner n = some i) :
    Counts (l.drop n) (Function.update size i (size i - 1)) := by
  intro j
  rw [Ledger.nodes_drop]
  by_cases hj : j = i
  · subst hj
    rw [update_self, Finset.card_erase_of_mem (Ledger.mem_nodes.mpr hn), h j]
  · rw [update_of_ne hj, Finset.erase_eq_of_notMem, h j]
    rw [Ledger.mem_nodes, hn, some_inj]
    exact fun e => hj e.symm

theorem absorb (h : Counts l size) {i j : ℕ} (hij : i ≠ j) :
    Counts (l.absorb i j) (Function.update (Function.update size i (size i + size j)) j 0) := by
  intro k
  by_cases hkj : k = j
  · subst hkj
    rw [update_self, Ledger.nodes_absorb_right hij, Finset.card_empty]
  · rw [update_of_ne hkj]
    by_cases hki : k = i
    · subst hki
      rw [update_self, Ledger.nodes_absorb, Finset.card_union_of_disjoint, h k, h j]
      rw [Finset.disjoint_left]
      intro n hn hn'
      rw [Ledger.mem_nodes] at hn hn'
      rw [hn, some_inj] at hn'
      exact hij hn'
    · rw [update_of_ne hki, Ledger.nodes_absorb_of_ne hki hkj, h k]

theorem empty : Counts Ledger.empty fun _ => 0 := fun _ => rfl

end Counts

/-! ### What a priority queue does -/

/-- The live handles and the values written. -/
structure Account (α : Type*) where
  ledger : Ledger
  value : ℕ → α

/-- A call.  `touch` writes through the handle and then calls `update(handle)`. -/
inductive Op (α : Type*) where
  | push (i : ℕ) (v : α)
  | pop (i : ℕ)
  | update (i n : ℕ) (v : α)
  | touch (i n : ℕ) (v : α)
  | increase (i n : ℕ) (v : α)
  | decrease (i n : ℕ) (v : α)
  | erase (i n : ℕ)
  | merge (i j : ℕ)

namespace Account

variable {α : Type*} (cmp : α → α → Bool)

/-- No handles. -/
def empty (α : Type*) [Inhabited α] : Account α := ⟨.empty, fun _ => default⟩

/-- `handle = v`. -/
def assign (a : Account α) (n : ℕ) (v : α) : Account α :=
  { a with value := Function.update a.value n v }

/-- `n` is an element of heap `i` that no element of it is larger than. -/
def Maximum (a : Account α) (i n : ℕ) : Prop :=
  a.ledger.owner n = some i ∧
    ∀ m, a.ledger.owner m = some i → cmp (a.value n) (a.value m) = false

/-- Only the elements of heap `i` matter. -/
theorem Maximum.congr {cmp : α → α → Bool} {a a' : Account α} {i n : ℕ} (h : a.Maximum cmp i n)
    (ho : ∀ m, a'.ledger.owner m = some i ↔ a.ledger.owner m = some i)
    (hv : ∀ m, a.ledger.owner m = some i → a'.value m = a.value m) : a'.Maximum cmp i n := by
  refine ⟨(ho n).mpr h.1, fun m hm => ?_⟩
  have hm' := (ho m).mp hm
  rw [hv n h.1, hv m hm']
  exact h.2 m hm'

/-- An element that is not the maximum gets a value: it or the old maximum is a maximum. -/
theorem Maximum.assign {cmp : α → α → Bool} (hw : StrictWeak cmp) {a : Account α} {i n t : ℕ}
    (h : a.Maximum cmp i t) (hn : a.ledger.owner n = some i) (htn : t ≠ n) (v : α) :
    (cmp (a.value t) v = true → (a.assign n v).Maximum cmp i n) ∧
      (cmp (a.value t) v = false → (a.assign n v).Maximum cmp i t) := by
  have hself : (a.assign n v).value n = v := update_self ..
  have hother : ∀ {m}, m ≠ n → (a.assign n v).value m = a.value m :=
    fun hm => update_of_ne hm ..
  refine ⟨fun hc => ⟨hn, fun m hm => ?_⟩, fun hc => ⟨h.1, fun m hm => ?_⟩⟩
  · rw [hself]
    by_cases hmn : m = n
    · rw [hmn, hself]
      exact hw.refl v
    · rw [hother hmn]
      exact hw.trans (hw.asymm hc) (h.2 m hm)
  · rw [hother htn]
    by_cases hmn : m = n
    · rw [hmn, hself]
      exact hc
    · rw [hother hmn]
      exact h.2 m hm

theorem Maximum.raise {cmp : α → α → Bool} (hw : StrictWeak cmp) {a : Account α} {i n t : ℕ} {v : α}
    (h : a.Maximum cmp i t) (hn : a.ledger.owner n = some i) (hv : cmp v (a.value n) = false) :
    (cmp ((a.assign n v).value t) v = true → (a.assign n v).Maximum cmp i n) ∧
      (cmp ((a.assign n v).value t) v = false → (a.assign n v).Maximum cmp i t) := by
  by_cases htn : t = n
  · subst htn
    have hself : (a.assign t v).value t = v := update_self ..
    rw [hself]
    refine ⟨fun hc => absurd hc (by rw [hw.refl v]; decide), fun _ => ⟨h.1, fun m hm => ?_⟩⟩
    rw [hself]
    by_cases hmt : m = t
    · rw [hmt, hself]
      exact hw.refl v
    · rw [show (a.assign t v).value m = a.value m from update_of_ne hmt ..]
      exact hw.trans hv (h.2 m hm)
  · rw [show (a.assign n v).value t = a.value t from update_of_ne htn ..]
    exact h.assign hw hn htn v

theorem Maximum.push {cmp : α → α → Bool} (hw : StrictWeak cmp) {a : Account α} {i t : ℕ} {v : α}
    (h : a.Maximum cmp i t) :
    (cmp (a.value t) v = true → Maximum cmp ⟨a.ledger.add i, Function.update a.value a.ledger.fresh v⟩ i
        a.ledger.fresh) ∧
      (cmp (a.value t) v = false →
        Maximum cmp ⟨a.ledger.add i, Function.update a.value a.ledger.fresh v⟩ i t) := by
  have hdead := a.ledger.bound a.ledger.fresh le_rfl
  have ht : t ≠ a.ledger.fresh := by
    rintro rfl
    have ho := h.1
    rw [hdead] at ho
    cases ho
  have hcase : ∀ {m}, (a.ledger.add i).owner m = some i →
      m = a.ledger.fresh ∨ (m ≠ a.ledger.fresh ∧ a.ledger.owner m = some i) := by
    intro m hm
    rw [Ledger.owner_add] at hm
    by_cases hmf : m = a.ledger.fresh
    · exact Or.inl hmf
    · rw [if_neg hmf] at hm
      exact Or.inr ⟨hmf, hm⟩
  refine ⟨fun hc => ⟨(Ledger.owner_add i _).trans (if_pos rfl), fun m hm => ?_⟩,
    fun hc => ⟨(Ledger.owner_add i _).trans ((if_neg ht).trans h.1), fun m hm => ?_⟩⟩
  · show cmp (update a.value _ v _) (update a.value _ v m) = false
    rw [update_self]
    rcases hcase hm with rfl | ⟨hmf, hm⟩
    · rw [update_self]
      exact hw.refl v
    · rw [update_of_ne hmf]
      exact hw.trans (hw.asymm hc) (h.2 m hm)
  · show cmp (update a.value _ v t) (update a.value _ v m) = false
    rw [update_of_ne ht]
    rcases hcase hm with rfl | ⟨hmf, hm⟩
    · rw [update_self]
      exact hc
    · rw [update_of_ne hmf]
      exact h.2 m hm

/-- The preconditions of the calls. -/
def Allowed (a : Account α) : Op α → Prop
  | .push _ _ => True
  | .pop i => (a.ledger.nodes i).Nonempty
  | .update i n _ => a.ledger.owner n = some i
  | .touch i n _ => a.ledger.owner n = some i
  | .increase i n v => a.ledger.owner n = some i ∧ cmp v (a.value n) = false
  | .decrease i n _ => a.ledger.owner n = some i
  | .erase i n => a.ledger.owner n = some i
  | .merge i j => i ≠ j

instance (a : Account α) : (op : Op α) → Decidable (a.Allowed cmp op)
  | .push _ _ => inferInstanceAs (Decidable True)
  | .pop i => inferInstanceAs (Decidable (a.ledger.nodes i).Nonempty)
  | .update i n _ => inferInstanceAs (Decidable (a.ledger.owner n = some i))
  | .touch i n _ => inferInstanceAs (Decidable (a.ledger.owner n = some i))
  | .increase i n v =>
    inferInstanceAs (Decidable (a.ledger.owner n = some i ∧ cmp v (a.value n) = false))
  | .decrease i n _ => inferInstanceAs (Decidable (a.ledger.owner n = some i))
  | .erase i n => inferInstanceAs (Decidable (a.ledger.owner n = some i))
  | .merge i j => inferInstanceAs (Decidable (i ≠ j))

/-- What a priority queue makes of a call. -/
inductive Step : Account α → Op α → Account α → Prop where
  | push (a : Account α) (i : ℕ) (v : α) :
      Step a (.push i v) ⟨a.ledger.add i, Function.update a.value a.ledger.fresh v⟩
  | pop (a : Account α) {i n : ℕ} (h : a.Maximum cmp i n) :
      Step a (.pop i) ⟨a.ledger.drop n, a.value⟩
  | update (a : Account α) (i n : ℕ) (v : α) : Step a (.update i n v) (a.assign n v)
  | touch (a : Account α) (i n : ℕ) (v : α) : Step a (.touch i n v) (a.assign n v)
  | increase (a : Account α) (i n : ℕ) (v : α) : Step a (.increase i n v) (a.assign n v)
  | decrease (a : Account α) (i n : ℕ) (v : α) : Step a (.decrease i n v) (a.assign n v)
  | erase (a : Account α) (i n : ℕ) : Step a (.erase i n) ⟨a.ledger.drop n, a.value⟩
  | merge (a : Account α) (i j : ℕ) : Step a (.merge i j) ⟨a.ledger.absorb i j, a.value⟩

/-- A run of a priority queue. -/
inductive Run : Account α → List (Op α) → Account α → Prop where
  | nil (a : Account α) : Run a [] a
  | cons {a a₁ a' : Account α} {op : Op α} {ops : List (Op α)} (h : Step cmp a op a₁)
      (t : Run a₁ ops a') : Run a (op :: ops) a'

end Account

/-! ### Runs of an implementation -/

section Runs

variable {α W : Type*} (cmp : α → α → Bool) (account : W → Account α) (step : W → Op α → W)

/-- Every call of the run is allowed when it is made. -/
def AllowedRun : W → List (Op α) → Prop
  | _, [] => True
  | w, op :: ops => (account w).Allowed cmp op ∧ AllowedRun (step w op) ops

instance AllowedRun.decidable : (w : W) → (ops : List (Op α)) →
    Decidable (AllowedRun cmp account step w ops)
  | _, [] => inferInstanceAs (Decidable True)
  | w, op :: ops =>
    have : Decidable (AllowedRun cmp account step (step w op) ops) :=
      AllowedRun.decidable (step w op) ops
    inferInstanceAs (Decidable ((account w).Allowed cmp op ∧ _))

variable {cmp account step} {I : W → Prop}

/-- **An invariant of the steps is an invariant of the runs.** -/
theorem AllowedRun.invariant (hstep : ∀ w op, I w → (account w).Allowed cmp op → I (step w op))
    (ops : List (Op α)) :
    ∀ w, I w → AllowedRun cmp account step w ops → I (ops.foldl step w) := by
  induction ops with
  | nil => exact fun w hw _ => hw
  | cons op ops ih => exact fun w hw h => ih (step w op) (hstep w op hw h.1) h.2

/-- **A run of the implementation is a run of a priority queue** if each step is. -/
theorem AllowedRun.simulates (hstep : ∀ w op, I w → (account w).Allowed cmp op → I (step w op))
    (hsim : ∀ w op, I w → (account w).Allowed cmp op →
      Account.Step cmp (account w) op (account (step w op)))
    (ops : List (Op α)) :
    ∀ w, I w → AllowedRun cmp account step w ops →
      Account.Run cmp (account w) ops (account (ops.foldl step w)) := by
  induction ops with
  | nil => exact fun w _ _ => .nil _
  | cons op ops ih =>
    exact fun w hw h => .cons (hsim w op hw h.1) (ih (step w op) (hstep w op hw h.1) h.2)

end Runs

/-! ### Runs in which a call may fail -/

section PartialRuns

variable {α W : Type*} (step : W → Op α → Option W)

/-- The world after a run, if no call of it fails. -/
def tryRun : W → List (Op α) → Option W
  | w, [] => some w
  | w, op :: ops =>
    match step w op with
    | some w' => tryRun w' ops
    | none => none

/-- Every call that is made is as `P` says of the world before it. -/
def Along (P : W → Op α → Prop) : W → List (Op α) → Prop
  | _, [] => True
  | w, op :: ops =>
    P w op ∧
      match step w op with
      | some w' => Along P w' ops
      | none => True

/-- Every call returns, as `S` says of the worlds before and after it. -/
def Through (S : W → Op α → W → Prop) : W → List (Op α) → Prop
  | _, [] => True
  | w, op :: ops => ∃ w', step w op = some w' ∧ S w op w' ∧ Through S w' ops

instance Along.decidable (P : W → Op α → Prop) [∀ w op, Decidable (P w op)] :
    (w : W) → (ops : List (Op α)) → Decidable (Along step P w ops)
  | _, [] => inferInstanceAs (Decidable True)
  | w, op :: ops =>
    match h : step w op with
    | some w' =>
      have : Decidable (Along step P w' ops) := Along.decidable P w' ops
      decidable_of_iff (P w op ∧ Along step P w' ops) (by rw [Along, h])
    | none => decidable_of_iff (P w op) (by rw [Along, h, and_true])

variable {step} {P F : W → Op α → Prop} {S : W → Op α → W → Prop} {I : W → Prop} {ops : List (Op α)}

theorem tryRun_append {w w' : W} (h : tryRun step w ops = some w') (ops' : List (Op α)) :
    tryRun step w (ops ++ ops') = tryRun step w' ops' := by
  induction ops generalizing w with
  | nil => rw [List.nil_append, some_inj.mp h]
  | cons op ops ih =>
    rw [tryRun] at h
    rw [List.cons_append, tryRun]
    cases hs : step w op with
    | none =>
      rw [hs] at h
      cases h
    | some w₁ =>
      rw [hs] at h
      exact ih h

theorem Along.append {ops ops' : List (Op α)} {w w' : W} (h : Along step P w ops)
    (hrun : tryRun step w ops = some w') (h' : Along step P w' ops') :
    Along step P w (ops ++ ops') := by
  induction ops generalizing w with
  | nil =>
    rw [tryRun, some_inj] at hrun
    exact hrun ▸ h'
  | cons op ops ih =>
    rw [tryRun] at hrun
    rw [Along] at h
    rw [List.cons_append, Along]
    refine ⟨h.1, ?_⟩
    cases hs : step w op with
    | none => trivial
    | some w₁ =>
      rw [hs] at hrun h
      exact ih h.2 hrun

theorem Along.mono {w : W} (h : Along step P w ops) (hPF : ∀ w op, P w op → F w op) :
    Along step F w ops := by
  induction ops generalizing w with
  | nil => trivial
  | cons op ops ih =>
    rw [Along] at h ⊢
    refine ⟨hPF w op h.1, ?_⟩
    cases hs : step w op with
    | none => trivial
    | some w₁ =>
      rw [hs] at h
      exact ih h.2

theorem Along.and {w : W} (h : Along step P w ops) (h' : Along step F w ops) :
    Along step (fun w op => P w op ∧ F w op) w ops := by
  induction ops generalizing w with
  | nil => trivial
  | cons op ops ih =>
    rw [Along] at h h' ⊢
    refine ⟨⟨h.1, h'.1⟩, ?_⟩
    cases hs : step w op with
    | none => trivial
    | some w₁ =>
      rw [hs] at h h'
      exact ih h.2 h'.2

/-- `w` is the end of a run from `w₀` whose calls are as `P` says. -/
def Reached (step : W → Op α → Option W) (P : W → Op α → Prop) (w₀ w : W) : Prop :=
  ∃ ops, Along step P w₀ ops ∧ tryRun step w₀ ops = some w

theorem Reached.refl (w : W) : Reached step P w w := ⟨[], trivial, rfl⟩

theorem Reached.call {w₀ w w' : W} {op : Op α} (h : Reached step P w₀ w) (hP : P w op)
    (hs : step w op = some w') : Reached step P w₀ w' := by
  obtain ⟨ops, halong, hrun⟩ := h
  have hone : tryRun step w [op] = some w' := by
    rw [tryRun, hs]
    rfl
  refine ⟨ops ++ [op], halong.append hrun ?_, (tryRun_append hrun [op]).trans hone⟩
  rw [Along, hs]
  exact ⟨hP, trivial⟩

theorem Reached.fail {w₀ w : W} {op : Op α} (h : Reached step P w₀ w) (hP : P w op)
    (hs : step w op = none) : ∃ ops, Along step P w₀ ops ∧ tryRun step w₀ ops = none := by
  obtain ⟨ops, halong, hrun⟩ := h
  have hone : tryRun step w [op] = none := by rw [tryRun, hs]
  refine ⟨ops ++ [op], halong.append hrun ?_, (tryRun_append hrun [op]).trans hone⟩
  rw [Along, hs]
  exact ⟨hP, trivial⟩

/-- **A run goes through** exactly if every call meets the condition under which it returns. -/
theorem through_iff (hstep : ∀ w op, I w → P w op →
      (step w op = none ∧ ¬ F w op) ∨ ∃ w', step w op = some w' ∧ F w op ∧ I w' ∧ S w op w')
    (ops : List (Op α)) :
    ∀ w, I w → Along step P w ops → (Through step S w ops ↔ Along step F w ops) := by
  induction ops with
  | nil => exact fun _ _ _ => Iff.rfl
  | cons op ops ih =>
    intro w hw h
    rw [Along] at h
    rw [Through, Along]
    rcases hstep w op hw h.1 with ⟨hnone, hfits⟩ | ⟨w', hsome, hfits, hw', hs⟩
    · refine ⟨fun ⟨w', hsome, _⟩ => ?_, fun hf => absurd hf.1 hfits⟩
      rw [hnone] at hsome
      cases hsome
    · rw [hsome] at h ⊢
      dsimp only at h ⊢
      rw [← ih w' hw' h.2]
      refine ⟨fun ⟨w₁, hw₁, _, ht⟩ => ⟨hfits, ?_⟩, fun hf => ⟨w', rfl, hs, hf.2⟩⟩
      rw [some_inj.mp hw₁]
      exact ht

theorem Through.exists_tryRun :
    ∀ {w : W}, Through step S w ops → ∃ w', tryRun step w ops = some w' := by
  induction ops with
  | nil => exact fun {w} _ => ⟨w, rfl⟩
  | cons op ops ih =>
    rintro w ⟨w₁, hw₁, -, ht⟩
    obtain ⟨w', hw'⟩ := ih ht
    exact ⟨w', by rw [tryRun, hw₁]; exact hw'⟩

end PartialRuns

/-! ### The nodes of an account as trees -/

/-- The forest of the live nodes. -/
def shape (l : Ledger) (children : ℕ → List ℕ) (R : Set ℕ) : Shape ℕ (Option ℕ) :=
  ⟨l.live, children, R, l.owner⟩

section

variable {α : Type*} {cmp : α → α → Bool} {a a' : Account α} {children children' : ℕ → List ℕ}
  {R : Set ℕ} {b c n : ℕ}

/-- Heap-ordered trees with the roots `R`. -/
structure Trees (cmp : α → α → Bool) (a : Account α) (children : ℕ → List ℕ) (R : Set ℕ) :
    Prop where
  valid : (shape a.ledger children R).Valid
  order : ∀ p, ∀ c ∈ children p, cmp (a.value p) (a.value c) = false

namespace Trees

theorem root_free (h : Trees cmp a children R) (hn : n ∈ R) (p : ℕ) : n ∉ children p :=
  h.valid.root_free (F := shape a.ledger children R) hn

theorem nodup (h : Trees cmp a children R) (p : ℕ) : (children p).Nodup := h.valid.nodup p

theorem not_self_child (h : Trees cmp a children R) : n ∉ children n :=
  h.valid.not_self_child (F := shape a.ledger children R)

theorem owner_eq (h : Trees cmp a children R) {p : ℕ} (hc : c ∈ children p) :
    a.ledger.owner c = a.ledger.owner p := h.valid.owner_eq hc

theorem children_of_dead (h : Trees cmp a children R) (hn : a.ledger.owner n = none) :
    children n = [] := by
  rw [List.eq_nil_iff_forall_not_mem]
  intro c hc
  exact Ledger.mem_live.mp (h.valid.child_live (F := shape a.ledger children R) hc).1 hn

/-- **A root put under a node** of another tree that is not less. -/
theorem attach (h : Trees cmp a children R) {t : ℕ} (hb : (shape a.ledger children R).Reaches b t)
    (hc : c ∈ R) (hne : t ≠ c) (ho : a.ledger.owner c = a.ledger.owner b)
    (hord : cmp (a.value b) (a.value c) = false) (hnodup : ∀ p, (children' p).Nodup)
    (hmem : ∀ p x, x ∈ children' p ↔ x ∈ children p ∨ (p = b ∧ x = c)) :
    Trees cmp a children' (R \ {c}) := by
  refine ⟨h.valid.attach hb hc hne ho rfl rfl (fun n => Iff.rfl) hnodup hmem, fun p x hx => ?_⟩
  rcases (hmem p x).mp hx with hx | ⟨rfl, rfl⟩
  · exact h.order p x hx
  · exact hord

/-- **One root put under another** that is not less. -/
theorem link (h : Trees cmp a children R) (hb : b ∈ R) (hc : c ∈ R) (hne : b ≠ c)
    (ho : a.ledger.owner c = a.ledger.owner b) (hord : cmp (a.value b) (a.value c) = false)
    (hnodup : ∀ p, (children' p).Nodup)
    (hmem : ∀ p x, x ∈ children' p ↔ x ∈ children p ∨ (p = b ∧ x = c)) :
    Trees cmp a children' (R \ {c}) := h.attach (.root hb) hc hne ho hord hnodup hmem

/-- The lists may be put in another order. -/
theorem perm (h : Trees cmp a children R) (hperm : ∀ p, (children' p).Perm (children p)) :
    Trees cmp a children' R :=
  ⟨h.valid.congr rfl rfl rfl hperm, fun p c hc => h.order p c ((hperm p).mem_iff.mp hc)⟩

/-- **Nodes become roots**; values may change where the edges that are left stay in order. -/
theorem detach (h : Trees cmp a children R) (C : Set ℕ) (hC : ∀ c ∈ C, a.ledger.owner c ≠ none)
    (hledger : a'.ledger = a.ledger) (hnodup : ∀ p, (children' p).Nodup)
    (hmem : ∀ p x, x ∈ children' p ↔ x ∈ children p ∧ x ∉ C)
    (hord : ∀ p, ∀ x ∈ children' p, cmp (a'.value p) (a'.value x) = false) :
    Trees cmp a' children' (R ∪ C) := by
  refine ⟨?_, hord⟩
  rw [hledger]
  exact h.valid.detach C (fun c hc => Ledger.mem_live.mpr (hC c hc)) rfl rfl (fun n => Iff.rfl)
    hnodup hmem

/-- **A node and its children become roots**; the value of the node may change. -/
theorem isolate (h : Trees cmp a children R) (a' : Account α) (hn : a.ledger.owner n ≠ none)
    (hledger : a'.ledger = a.ledger) (hvalue : ∀ x, x ≠ n → a'.value x = a.value x) :
    Trees cmp a' (Function.update (fun p => (children p).erase n) n [])
      (R ∪ {n} ∪ { c | c ∈ children n }) := by
  rw [Set.union_assoc]
  have hmem : ∀ p x, x ∈ update (fun p => (children p).erase n) n [] p ↔
      x ∈ children p ∧ x ∉ ({n} ∪ { c | c ∈ children n } : Set ℕ) := by
    intro p x
    by_cases hp : p = n
    · subst hp
      rw [update_self]
      exact ⟨(nomatch ·), fun hx => absurd (Or.inr hx.1) hx.2⟩
    · rw [update_of_ne hp, (h.nodup p).mem_erase_iff, and_comm]
      refine and_congr_right fun hx => ⟨fun hxn hx' => ?_, fun hx' hxn => hx' (Or.inl hxn)⟩
      rcases hx' with hx' | hx'
      · exact hxn hx'
      · exact hp (h.valid.unique (F := shape a.ledger children R) hx hx')
  refine h.detach _ (fun c hc => ?_) hledger (fun p => ?_) hmem fun p x hx => ?_
  · rcases hc with rfl | hc
    · exact hn
    · rwa [h.owner_eq hc]
  · by_cases hp : p = n
    · simp [hp]
    · rw [update_of_ne hp]
      exact (h.nodup p).erase n
  · have hp : p ≠ n := by
      rintro rfl
      rw [update_self] at hx
      cases hx
    obtain ⟨hx, hxC⟩ := (hmem p x).mp hx
    rw [hvalue p hp, hvalue x fun e => hxC (Or.inl e)]
    exact h.order p x hx

/-- **A root is allocated.** -/
theorem alloc (h : Trees cmp a children R) (i : ℕ) (v : α) :
    Trees cmp ⟨a.ledger.add i, Function.update a.value a.ledger.fresh v⟩ children
      (R ∪ {a.ledger.fresh}) := by
  have hdead := a.ledger.bound a.ledger.fresh le_rfl
  have hne : ∀ {x}, a.ledger.owner x ≠ none → x ≠ a.ledger.fresh := fun hx e => hx (e ▸ hdead)
  refine ⟨h.valid.insert (n := a.ledger.fresh) (fun hf => Ledger.mem_live.mp hf hdead) (fun x => ?_)
    (fun x hx => ?_) (fun x => Iff.rfl) (fun p => rfl), fun p x hx => ?_⟩
  · show x ∈ (a.ledger.add i).live ↔ x ∈ a.ledger.live ∨ x = a.ledger.fresh
    rw [Ledger.mem_live, Ledger.mem_live, Ledger.owner_add]
    by_cases hx : x = a.ledger.fresh <;> simp [hx]
  · exact (Ledger.owner_add i x).trans (if_neg (hne (Ledger.mem_live.mp hx)))
  · obtain ⟨hp, hx'⟩ := h.valid.child_live (F := shape a.ledger children R) hx
    show cmp (update a.value _ v p) (update a.value _ v x) = false
    rw [update_of_ne (hne (Ledger.mem_live.mp hp)),
      update_of_ne (hne (Ledger.mem_live.mp hx'))]
    exact h.order p x hx

/-- **A root without children is freed.** -/
theorem free (h : Trees cmp a children R) (hn : n ∈ R) (hempty : children n = []) :
    Trees cmp ⟨a.ledger.drop n, a.value⟩ children (R \ {n}) := by
  refine ⟨h.valid.remove hn hempty (fun x => ?_) (fun x hx => ?_) (fun x => Iff.rfl) (fun p => rfl),
    h.order⟩
  · show x ∈ (a.ledger.drop n).live ↔ x ∈ a.ledger.live ∧ x ≠ n
    rw [Ledger.mem_live, Ledger.mem_live, Ledger.owner_drop]
    by_cases hx : x = n <;> simp [hx]
  · exact (Ledger.owner_drop n x).trans (if_neg hx)

/-- **A node is freed** and its children become roots. -/
theorem release (h : Trees cmp a children R) (hn : a.ledger.owner n ≠ none) :
    Trees cmp ⟨a.ledger.drop n, a.value⟩ (Function.update (fun p => (children p).erase n) n [])
      (R \ {n} ∪ { c | c ∈ children n }) := by
  have hfree := (h.isolate a hn rfl fun _ _ => rfl).free (Or.inl (Or.inr rfl))
    (update_self ..)
  rwa [Set.union_sdiff_distrib, Set.union_sdiff_right,
    Set.sdiff_singleton_eq_self (s := { c | c ∈ children n }) h.not_self_child] at hfree

/-- **The nodes of one heap become nodes of another.** -/
theorem absorb (h : Trees cmp a children R) (i j : ℕ) :
    Trees cmp ⟨a.ledger.absorb i j, a.value⟩ children R := by
  refine ⟨h.valid.relabel ?_ rfl (fun p => rfl) (fun x y _ hxy => ?_), h.order⟩
  · ext x
    show x ∈ (a.ledger.absorb i j).live ↔ x ∈ a.ledger.live
    rw [Ledger.mem_live, Ledger.mem_live, Ledger.absorb]
    by_cases hx : a.ledger.owner x = some j <;> simp [hx]
  · show (if a.ledger.owner x = some j then _ else _) = if a.ledger.owner y = some j then _ else _
    rw [show a.ledger.owner x = a.ledger.owner y from hxy]

end Trees

end

/-! ### Heaps of one tree -/

/-- The roots of the heaps. -/
def heapRoots (root : ℕ → Option ℕ) : Set ℕ := { n | ∃ i, root i = some n }

section

variable {α : Type*} {cmp : α → α → Bool} {a : Account α} {children : ℕ → List ℕ}
  {root : ℕ → Option ℕ} {size : ℕ → ℕ} {i n : ℕ}

theorem mem_heapRoots_update (h : ∀ j x, root j = some x → root i = some x → j = i) (o : Option ℕ) :
    n ∈ heapRoots (Function.update root i o) ↔ (n ∈ heapRoots root ∧ root i ≠ some n) ∨ o = some n := by
  constructor
  · rintro ⟨j, hj⟩
    by_cases hji : j = i
    · subst hji
      rw [update_self] at hj
      exact Or.inr hj
    · rw [update_of_ne hji] at hj
      exact Or.inl ⟨⟨j, hj⟩, fun hi => hji (h j n hj hi)⟩
  · rintro (⟨⟨j, hj⟩, hi⟩ | ho)
    · have hji : j ≠ i := fun e => hi (e ▸ hj)
      exact ⟨j, by rw [update_of_ne hji, hj]⟩
    · exact ⟨i, by rw [update_self, ho]⟩

theorem heapRoots_replace {r : ℕ} (h : ∀ j x, root j = some x → root i = some x → j = i)
    (hr : root i = some r) (o : Option ℕ) :
    heapRoots (Function.update root i o) = heapRoots root \ {r} ∪ { x | o = some x } := by
  ext x
  rw [mem_heapRoots_update h, hr]
  simp [eq_comm]

theorem heapRoots_fill {other : ℕ} (h : ∀ j x, root j = some x → root i = some x → j = i)
    (hr : root i = none) :
    heapRoots (Function.update root i (some other)) = heapRoots root ∪ {other} := by
  ext x
  rw [mem_heapRoots_update h, hr]
  simp [eq_comm, or_comm]

theorem heapRoots_winner {r other k s : ℕ} (h : ∀ j x, root j = some x → root i = some x → j = i)
    (hr : root i = some r) (hother : other ∉ heapRoots root)
    (hs : k = r ∧ s = other ∨ k = other ∧ s = r) :
    heapRoots (Function.update root i (some k)) = (heapRoots root ∪ {other}) \ {s} := by
  have hrR : r ∈ heapRoots root := ⟨i, hr⟩
  ext x
  rw [mem_heapRoots_update h, hr]
  simp only [Set.mem_sdiff, Set.mem_union, Set.mem_singleton_iff, ne_eq, some_inj]
  rcases hs with ⟨rfl, rfl⟩ | ⟨rfl, rfl⟩
  · constructor
    · rintro (⟨hx, -⟩ | rfl)
      · exact ⟨Or.inl hx, fun e => hother (e ▸ hx)⟩
      · exact ⟨Or.inl hrR, fun e => hother (e ▸ hrR)⟩
    · rintro ⟨hx | hx, hxs⟩
      · exact (Classical.em (k = x)).symm.imp (⟨hx, ·⟩) id
      · exact absurd hx hxs
  · constructor
    · rintro (⟨hx, hxr⟩ | rfl)
      · exact ⟨Or.inl hx, fun e => hxr e.symm⟩
      · exact ⟨Or.inr rfl, fun e => hother (e ▸ hrR)⟩
    · rintro ⟨hx | rfl, hxs⟩
      · exact Or.inl ⟨hx, fun e => hxs e.symm⟩
      · exact Or.inr rfl

/-- A root is an element of the heap it is the root of. -/
def Rooted (l : Ledger) (root : ℕ → Option ℕ) : Prop := ∀ i n, root i = some n → l.owner n = some i

theorem Rooted.inj {l : Ledger} (h : Rooted l root) (i j n : ℕ) (hj : root j = some n)
    (hi : root i = some n) : j = i := some_inj.mp ((h j n hj).symm.trans (h i n hi))

theorem Rooted.not_mem {l : Ledger} (h : Rooted l root) (hn : l.owner n = some i)
    (hr : root i ≠ some n) : n ∉ heapRoots root := by
  rintro ⟨j, hj⟩
  have ho := h j n hj
  rw [hn, some_inj] at ho
  exact hr (ho ▸ hj)

theorem roots_update {P : ℕ → ℕ → Prop} {o : Option ℕ}
    (h : ∀ j n, j ≠ i → root j = some n → P j n) (ho : ∀ n, o = some n → P i n) :
    ∀ j n, Function.update root i o j = some n → P j n := by
  intro j n hj
  by_cases hji : j = i
  · subst hji
    rw [update_self] at hj
    exact ho n hj
  · rw [update_of_ne hji] at hj
    exact h j n hji hj

theorem Rooted.update {l : Ledger} (h : Rooted l root) {o : Option ℕ}
    (ho : ∀ n, o = some n → l.owner n = some i) : Rooted l (Function.update root i o) :=
  roots_update (fun j n _ => h j n) ho

/-- Each heap has one tree, and a root is an element of the heap it is the root of. -/
structure OneTree (cmp : α → α → Bool) (a : Account α) (children : ℕ → List ℕ)
    (root : ℕ → Option ℕ) : Prop where
  trees : Trees cmp a children (heapRoots root)
  rooted : Rooted a.ledger root

/-- What a heap of one tree looks like from outside: `child` orders the nodes by parenthood. -/
structure IsQueue (cmp : α → α → Bool) (a : Account α) (children : ℕ → List ℕ)
    (root : ℕ → Option ℕ) (size : ℕ → ℕ) : Prop where
  ordered : ∀ p, ∀ c ∈ children p, cmp (a.value p) (a.value c) = false
  size_eq : ∀ i, size i = (a.ledger.nodes i).card
  top_max : ∀ i r, root i = some r → a.Maximum cmp i r
  top_none : ∀ i, root i = none → a.ledger.nodes i = ∅
  /-- A live node is the root and nobody's child, or it has exactly one parent. -/
  place : ∀ n i, a.ledger.owner n = some i →
    (root i = some n ∧ ∀ p, n ∉ children p) ∨ (root i ≠ some n ∧ ∃! p, n ∈ children p)
  once : ∀ p, (children p).Nodup
  child_live : ∀ p, ∀ c ∈ children p, a.ledger.owner c ≠ none
  /-- The root is an ancestor of every node of its heap. -/
  connected : ∀ n i, a.ledger.owner n = some i →
    ∃ r, root i = some r ∧ Relation.ReflTransGen (fun c p => c ∈ children p) n r
  acyclic : ∀ n, ¬ Relation.TransGen (fun c p => c ∈ children p) n n

theorem IsQueue.top_ge (h : IsQueue cmp a children root size) (hn : a.ledger.owner n = some i) :
    ∃ v, (root i).map a.value = some v ∧ cmp v (a.value n) = false := by
  obtain ⟨r, hr, -⟩ := h.connected n i hn
  exact ⟨a.value r, by rw [hr, map_some], (h.top_max i r hr).2 n hn⟩

namespace OneTree

/-- A node of heap `i` is under the root of heap `i`. -/
theorem reaches (h : OneTree cmp a children root) (hn : a.ledger.owner n = some i) :
    ∃ r, root i = some r ∧ (shape a.ledger children (heapRoots root)).Reaches n r := by
  obtain ⟨r, hr⟩ := h.trees.valid.reaches (n := n) (Ledger.mem_live.mpr (by simp [hn]))
  obtain ⟨j, hj⟩ := hr.mem_roots
  have ho : a.ledger.owner n = a.ledger.owner r := h.trees.valid.reaches_owner hr
  rw [hn, h.rooted _ _ hj, some_inj] at ho
  exact ⟨r, ho ▸ hj, hr⟩

theorem maximum (hw : StrictWeak cmp) (h : OneTree cmp a children root) {r : ℕ}
    (hr : root i = some r) : a.Maximum cmp i r := by
  refine ⟨h.rooted _ _ hr, fun m hm => ?_⟩
  obtain ⟨r', hr', hreach⟩ := h.reaches hm
  rw [hr, some_inj] at hr'
  subst hr'
  exact hreach.ge_of_root (g := fun x y => cmp x y = false) (f := a.value) hw.refl
    (fun _ _ _ => hw.trans) h.trees.order

/-- **A heap of one tree is a priority queue.** -/
theorem isQueue (hw : StrictWeak cmp) (h : OneTree cmp a children root)
    (hsize : Counts a.ledger size) : IsQueue cmp a children root size where
  ordered := h.trees.order
  size_eq := hsize
  top_max i r hr := h.maximum hw hr
  top_none i hi := by
    rw [Finset.eq_empty_iff_forall_notMem]
    intro n hn
    obtain ⟨r, hr, -⟩ := h.reaches (Ledger.mem_nodes.mp hn)
    rw [hi] at hr
    cases hr
  place n i hn := by
    by_cases hr : root i = some n
    · exact Or.inl ⟨hr, h.trees.root_free ⟨i, hr⟩⟩
    · refine Or.inr ⟨hr, ?_⟩
      obtain ⟨p, hp⟩ := (h.trees.valid.root_or_child (n := n)
        (Ledger.mem_live.mpr (by simp [hn]))).resolve_left (h.rooted.not_mem hn hr)
      exact ⟨p, hp, fun q hq => h.trees.valid.unique hq hp⟩
  once := h.trees.nodup
  child_live p c hc := Ledger.mem_live.mp (h.trees.valid.child_live hc).2
  connected n i hn := by
    obtain ⟨r, hr, hreach⟩ := h.reaches hn
    exact ⟨r, hr, hreach.ancestor⟩
  acyclic := h.trees.valid.acyclic

/-- **Heap `j` gives its tree to heap `i`**: the tree is no heap's until it is merged. -/
theorem hand_over (h : OneTree cmp a children root) {j r : ℕ} (hr : root j = some r) (i : ℕ) :
    Rooted (a.ledger.absorb i j) (Function.update root j none) ∧
      Trees cmp ⟨a.ledger.absorb i j, a.value⟩ children
        (heapRoots (Function.update root j none) ∪ {r}) ∧
      r ∉ heapRoots (Function.update root j none) ∧ (a.ledger.absorb i j).owner r = some i := by
  have hroots : heapRoots (update root j none) = heapRoots root \ {r} := by
    rw [heapRoots_replace (h.rooted.inj j) hr]
    simp
  refine ⟨roots_update (fun k x hk hx => ?_) (fun x hx => nomatch hx), ?_, ?_,
    if_pos (h.rooted j r hr)⟩
  · have ho := h.rooted k x hx
    refine (if_neg ?_).trans ho
    rw [ho, some_inj]
    exact hk
  · have hr' : {r} ⊆ heapRoots root := Set.singleton_subset_iff.mpr ⟨j, hr⟩
    rw [hroots, Set.sdiff_union_of_subset hr']
    exact h.trees.absorb i j
  · rw [hroots]
    exact fun hr' => hr'.2 rfl

theorem empty [Inhabited α] : OneTree cmp (Account.empty α) (fun _ => []) fun _ => none where
  trees := by
    refine ⟨⟨?_, ?_, ?_, ?_, ?_, ?_, ?_⟩, ?_⟩
    · rintro r ⟨i, hi⟩
      cases hi
    · intro p c hc
      cases hc
    · intro p q c hc
      cases hc
    · exact fun p => List.nodup_nil
    · rintro r p ⟨i, hi⟩
      cases hi
    · intro n hn
      exact absurd (Ledger.mem_live.mp hn) (not_not_intro rfl)
    · intro p c hc
      cases hc
    · intro p c hc
      cases hc
  rooted i n h := by cases h

end OneTree

end

end SourceLibs.Handles
