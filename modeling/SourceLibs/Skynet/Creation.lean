import SourceLibs.Skynet.HandleTable

/-!
# Skynet — services that are created concurrently

`skynet_context_new` sets the field `handle` of its context to 0, registers the context, and stores what
`skynet_handle_register` returned in a later step; other threads may register, retire and grab between
the two.  Each locked section is one step, and a context that is created is at a new address.

* `register_congr`: what a registration needs to know of the fields.
* `Created.step_register`, `Created.step_retire`: what each step keeps.
* `creation_interleavings`: the interleavings in which every service stays reachable.
-/

namespace SourceLibs.SkynetHandle
open List Option Function Cells

variable {ν : Type*}

/-- How far `skynet_context_new` is with a context: `result` was returned for it, and may not have been
stored yet. -/
inductive Creation where
  | registered (result : ℕ)
  | stored (result : ℕ)

/-- The handle that is returned. -/
def Creation.result : Creation → ℕ
  | .registered h | .stored h => h

/-- The storage, the fields `handle` of the contexts, and their creations. -/
structure System (ν : Type*) where
  storage : HandleStorage ν
  handleOf : ℕ → ℕ
  creation : ℕ → Option Creation

/-- A step of some thread. -/
inductive Action where
  | register (ctx : ℕ)
  | store (ctx : ℕ)
  | retire (handle : ℕ)
  | grab (handle : ℕ)

/-- What a step does; only a context that is new is registered, and only one that was registered has its
handle stored. -/
def System.act (s : System ν) : Action → Except Abort (System ν)
  | .register ctx =>
    let handleOf := update s.handleOf ctx 0
    match skynetHandleRegister handleOf s.storage ctx with
    | .error e   => .error e
    | .ok (t, h) => .ok ⟨t, handleOf, update s.creation ctx (some (.registered h))⟩
  | .store ctx =>
    match s.creation ctx with
    | some (.registered h) =>
      .ok ⟨s.storage, update s.handleOf ctx h,
        update s.creation ctx (some (.stored h))⟩
    | _ => .ok s
  | .retire handle =>
    match skynetHandleRetire s.handleOf s.storage handle with
    | .error e   => .error e
    | .ok (t, _) => .ok ⟨t, s.handleOf, s.creation⟩
  | .grab _ => .ok s

/-- The services that were not retired, by handle, after a step. -/
def System.after (s s' : System ν) (live : ℕ → Option ℕ) : Action → ℕ → Option ℕ
  | .register ctx =>
    match s'.creation ctx with
    | some creation => update live creation.result (some ctx)
    | none          => live
  | .retire handle =>
    match skynetHandleGrab s.handleOf s.storage handle with
    | some _ => update live handle none
    | none   => live
  | _ => live

/-- The states of the interleavings whose steps are `allowed`, with the services that were not retired. -/
inductive Interleaves (allowed : System ν → Action → Prop) (harbor : ℕ) :
    System ν → (ℕ → Option ℕ) → Prop where
  | init (handleOf : ℕ → ℕ) :
      Interleaves allowed harbor ⟨skynetHandleInit harbor, handleOf, fun _ => none⟩ fun _ => none
  | step {s s' : System ν} {live : ℕ → Option ℕ} {a : Action} :
      Interleaves allowed harbor s live → (∀ ctx, a = .register ctx → s.creation ctx = none) →
      allowed s a → s.act a = .ok s' → Interleaves allowed harbor s' (s.after s' live a)

/-- Every creation has stored its handle. -/
def System.AllStored (s : System ν) : Prop := ∀ ctx h, s.creation ctx ≠ some (.registered h)

/-- **What a step needs.**  A registration that grows the table needs room for it, and of each service in
the table that its handle is stored, unless 0 is in the same slot of the larger table; a retired service
needs to have the handle that is retired. -/
def System.Meets (s : System ν) : Action → Prop
  | .register _ => none ∈ s.storage.slot ∨ s.storage.slot.length < 2 ^ 24 ∧
      ∀ ctx h, some ctx ∈ s.storage.slot → s.creation ctx = some (.registered h) →
        s.storage.slot.length * 2 ∣ h
  | .retire handle => ∀ ctx h, skynetHandleGrab s.handleOf s.storage handle = some ctx →
      s.creation ctx = some (.registered h) → h = handle
  | _ => True

/-! ### Fields and handles -/

section Fields
variable {s : HandleStorage ν} {f g : ℕ → ℕ} {ctx : ℕ}

theorem SlotsWf.congr (h : SlotsWf g s) (hfg : ∀ c, some c ∈ s.slot → f c = g c) : SlotsWf f s :=
  ⟨h.size, h.harbor, fun i c hc => by rw [hfg c (mem_of_getElem? hc)]; exact h.stored i c hc⟩

theorem moveSlots_congr {mask : ℕ} (slot : List (Option ℕ)) : ∀ new : List (Option ℕ),
    (∀ c, some c ∈ slot → f c &&& mask = g c &&& mask) →
      moveSlots f mask slot new = moveSlots g mask slot new := by
  induction slot with
  | nil => exact fun new _ => rfl
  | cons o slot ih =>
    intro new hfg
    cases o with
    | none => rfl
    | some c =>
      rw [moveSlots, moveSlots, hfg c mem_cons_self]
      split
      · rfl
      · rfl
      · exact ih _ fun d hd => hfg d (mem_cons_of_mem _ hd)

/-- **A registration reads the fields** only to grow the table, and of each only where it goes. -/
theorem register_congr (h : SlotsWf g s)
    (hfg : none ∉ s.slot → ∀ c, some c ∈ s.slot → f c % (s.slot.length * 2) = g c % (s.slot.length * 2))
    {r : HandleStorage ν × ℕ} (hg : skynetHandleRegister g s ctx = .ok r) :
    skynetHandleRegister f s ctx = .ok r := by
  obtain ⟨k, hk, hlen⟩ := h.size
  rw [skynetHandleRegister, registerLoop] at hg ⊢
  cases hprobe : probe s.slot s.handleIndex s.slot.length 0 with
  | some p =>
    rw [hprobe] at hg
    exact hg
  | none =>
    have hfull : none ∉ s.slot := fun hnone => by
      obtain ⟨j, hj⟩ := mem_iff_getElem?.mp hnone
      obtain ⟨c, hc⟩ := full_of_probe_none hlen hk hprobe (List.getElem?_eq_some_iff.mp hj).1
      cases hc.symm.trans hj
    have hmask : ∀ x, x &&& (s.slot.length * 2 - 1) = x % (s.slot.length * 2) := fun x => by
      rw [hlen, ← Nat.pow_succ, and_mask]
    have hmove := @moveSlots_congr f g (s.slot.length * 2 - 1) s.slot
      (List.replicate (s.slot.length * 2) none)
      fun c hc => by rw [hmask, hmask]; exact hfg hfull c hc
    rw [hprobe] at hg
    dsimp only at hg ⊢
    split at hg
    · next hsize =>
        rw [if_pos hsize, hmove]
        split at hg
        · cases hg
        · next new hnew =>
            rw [registerLoop] at hg ⊢
            -- In the larger table a slot is found, or both loops go on.
            split at hg
            · exact hg
            · dsimp only at hg
              split at hg
              · split at hg
                · cases hg
                · cases hg
              · cases hg
    · cases hg

end Fields

/-! ### Steps -/

/-- The handle of a context that is registered. -/
def System.result (s : System ν) (ctx : ℕ) : ℕ := (s.creation ctx).elim 0 Creation.result

section Steps
variable [LinearOrder ν] {s : System ν} {live : ℕ → Option ℕ}

/-- The table is right for the handles, which the fields of the created contexts hold. -/
structure Created (s : System ν) (live : ℕ → Option ℕ) : Prop where
  slots : SlotsWf s.result s.storage
  names : NamesWf s.storage []
  registered : ∀ ctx h, s.creation ctx = some (.registered h) → s.handleOf ctx = 0
  stored : ∀ ctx h, s.creation ctx = some (.stored h) → s.handleOf ctx = h
  mem : ∀ ctx, some ctx ∈ s.storage.slot → s.creation ctx ≠ none
  live : ∀ h ctx, live h = some ctx ↔ some ctx ∈ s.storage.slot ∧ s.result ctx = h

theorem created_init (harbor : ℕ) (handleOf : ℕ → ℕ) :
    Created (⟨skynetHandleInit harbor, handleOf, fun _ => none⟩ : System ν) fun _ => none := by
  have hrep := rep_init (ν := ν) harbor fun _ => 0
  have hslot : ∀ c, some c ∉ (skynetHandleInit harbor : HandleStorage ν).slot := fun c hc => by
    cases eq_of_mem_replicate hc
  exact ⟨hrep.slots, hrep.names, fun _ _ h => (by cases h), fun _ _ h => (by cases h),
    fun c hc => absurd hc (hslot c),
    fun h c => ⟨fun h0 => (by cases h0), fun h0 => absurd h0.1 (hslot c)⟩⟩

theorem Created.step_register (h : Created s live) {ctx : ℕ} (hnew : s.creation ctx = none)
    (hmeets : s.Meets (.register ctx)) :
    ∃ t handle, skynetHandleRegister (update s.handleOf ctx 0) s.storage ctx = .ok (t, handle) ∧
      live handle = none ∧
      Created ⟨t, update s.handleOf ctx 0,
        update s.creation ctx (some (.registered handle))⟩
        (update live handle (some ctx)) := by
  have hctx : some ctx ∉ s.storage.slot := fun hc => h.mem ctx hc hnew
  obtain ⟨k, hk, hlen⟩ := h.slots.size
  have hlive : s.storage.live ≤ handleMask := by
    have hle : s.storage.live ≤ s.storage.slot.length := countP_le_length
    have h24 : 2 ^ k ≤ 2 ^ 24 := Nat.pow_le_pow_right (by decide) hk
    have hmask : handleMask = 2 ^ 24 - 1 := rfl
    rcases hmeets with hnone | ⟨hlt, -⟩
    · have hne : s.storage.live ≠ s.storage.slot.length := fun heq =>
        Bool.false_ne_true (countP_eq_length.mp heq none hnone)
      omega
    · omega
  obtain ⟨t, handle, hreg, hwf, hmem, hne, hname, hcount⟩ :=
    skynetHandleRegister_ok h.slots hctx hlive
  -- The fields go where the handles go.
  have hfields : none ∉ s.storage.slot → ∀ c, some c ∈ s.storage.slot →
      update s.handleOf ctx 0 c % (s.storage.slot.length * 2) =
        s.result c % (s.storage.slot.length * 2) := by
    intro hfull c hc
    have hcc : c ≠ ctx := fun heq => hctx (heq ▸ hc)
    rw [update_of_ne hcc, System.result]
    cases hcreation : s.creation c with
    | none => exact absurd hcreation (h.mem c hc)
    | some creation =>
      cases creation with
      | stored x => rw [h.stored c x hcreation]; rfl
      | registered x =>
        have hdvd := (hmeets.resolve_left hfull).2 c x hc hcreation
        rw [h.registered c x hcreation, Nat.zero_mod]
        exact (Nat.mod_eq_zero_of_dvd hdvd).symm
  have hresult : (⟨t, update s.handleOf ctx 0,
      update s.creation ctx (some (.registered handle))⟩ : System ν).result =
        update s.result ctx handle :=
    comp_update (fun o : Option Creation => o.elim 0 Creation.result) s.creation ctx _
  have hnone : live handle = none := by
    rw [eq_none_iff_forall_ne_some]
    intro c hc
    obtain ⟨hcs, hch⟩ := (h.live handle c).mp hc
    exact hne c hcs hch
  refine ⟨t, handle, register_congr h.slots hfields hreg, hnone, ?_, ?_, fun c x hx => ?_,
    fun c x hx => ?_, fun c hc => ?_, fun x c => ?_⟩
  · rw [hresult]
    exact hwf
  · refine ⟨?_, hcount.trans h.names.count, h.names.sorted, ?_⟩
    · dsimp only
      rw [hname]
      exact h.names.holds
    · dsimp only
      rw [hname]
      exact h.names.cap
  · dsimp only at hx ⊢
    by_cases hc : c = ctx
    · rw [hc, update_self]
    · rw [update_of_ne hc] at hx ⊢
      exact h.registered c x hx
  · dsimp only at hx ⊢
    by_cases hc : c = ctx
    · rw [hc, update_self] at hx
      cases hx
    · rw [update_of_ne hc] at hx ⊢
      exact h.stored c x hx
  · dsimp only at hc ⊢
    by_cases heq : c = ctx
    · rw [heq, update_self]
      exact some_ne_none _
    · rw [update_of_ne heq]
      exact h.mem c (((hmem c).mp hc).resolve_right heq)
  · rw [hresult]
    dsimp only
    rw [hmem]
    by_cases hc : c = ctx
    · rw [hc, update_self]
      by_cases hx : x = handle
      · rw [hx, update_self]
        exact ⟨fun _ => ⟨.inr rfl, rfl⟩, fun _ => rfl⟩
      · rw [update_of_ne hx]
        exact ⟨fun h0 => absurd ((h.live x ctx).mp h0).1 hctx, fun h0 => absurd h0.2.symm hx⟩
    · rw [update_of_ne hc, or_iff_left hc]
      by_cases hx : x = handle
      · rw [hx, update_self]
        exact ⟨fun h0 => absurd (some.inj h0).symm hc, fun h0 => absurd h0.2 (hne c h0.1)⟩
      · rw [update_of_ne hx]
        exact h.live x c

theorem Created.step_store (h : Created s live) {ctx x : ℕ}
    (hcreation : s.creation ctx = some (.registered x)) :
    Created ⟨s.storage, update s.handleOf ctx x,
      update s.creation ctx (some (.stored x))⟩ live := by
  have hresult : (⟨s.storage, update s.handleOf ctx x,
      update s.creation ctx (some (.stored x))⟩ : System ν).result = s.result := by
    refine (comp_update (fun o : Option Creation => o.elim 0 Creation.result) s.creation ctx
      (some (.stored x))).trans (update_eq_self_iff.mpr ?_)
    exact (congrArg (fun o : Option Creation => o.elim 0 Creation.result) hcreation).symm
  refine ⟨?_, h.names, fun c y hy => ?_, fun c y hy => ?_, fun c hc => ?_, fun y c => ?_⟩
  · rw [hresult]
    exact h.slots
  · dsimp only at hy ⊢
    by_cases hc : c = ctx
    · rw [hc, update_self] at hy
      cases hy
    · rw [update_of_ne hc] at hy ⊢
      exact h.registered c y hy
  · dsimp only at hy ⊢
    by_cases hc : c = ctx
    · rw [hc, update_self] at hy ⊢
      exact Creation.stored.inj (some.inj hy)
    · rw [update_of_ne hc] at hy ⊢
      exact h.stored c y hy
  · dsimp only
    by_cases heq : c = ctx
    · rw [heq, update_self]
      exact some_ne_none _
    · rw [update_of_ne heq]
      exact h.mem c hc
  · rw [hresult]
    exact h.live y c

theorem Created.step_retire (h : Created s live) {handle : ℕ} (hmeets : s.Meets (.retire handle)) :
    ∃ t yes, skynetHandleRetire s.handleOf s.storage handle = .ok (t, yes) ∧
      Created ⟨t, s.handleOf, s.creation⟩
        (match skynetHandleGrab s.handleOf s.storage handle with
          | some _ => update live handle none
          | none   => live) := by
  cases hgrab : skynetHandleGrab s.handleOf s.storage handle with
  | none => exact ⟨_, _, skynetHandleRetire_none hgrab, h⟩
  | some ctx =>
    obtain ⟨hslot, hfield⟩ : s.storage.slot[handle &&& (s.storage.slot.length - 1)]? =
        some (some ctx) ∧ s.handleOf ctx = handle := by
      rw [skynetHandleGrab] at hgrab
      split at hgrab
      · next c hslot =>
          split at hgrab
          · next heq => exact ⟨some.inj hgrab ▸ hslot, some.inj hgrab ▸ heq⟩
          · cases hgrab
      · cases hgrab
    -- The service that is found is the one that has the handle.
    have hresult : s.result ctx = handle := by
      rw [System.result]
      cases hcreation : s.creation ctx with
      | none => exact absurd hcreation (h.mem ctx (mem_of_getElem? hslot))
      | some creation =>
        cases creation with
        | stored x => exact (h.stored ctx x hcreation).symm.trans hfield
        | registered x => exact hmeets ctx x hgrab hcreation
    have hgrab' : skynetHandleGrab s.result s.storage handle = some ctx := by
      rw [skynetHandleGrab, hslot]
      exact if_pos hresult
    obtain ⟨t, hretire, hwf, hnames, hmem⟩ := skynetHandleRetire_some h.slots h.names hgrab'
    have hretire' : skynetHandleRetire s.handleOf s.storage handle = .ok (t, true) := by
      rw [← hretire, skynetHandleRetire, skynetHandleRetire, hslot]
      dsimp only
      rw [if_pos hfield, if_pos hresult]
    refine ⟨t, true, hretire', hwf, hnames, h.registered, h.stored,
      fun c hc => h.mem c ((hmem c).mp hc).1, fun x c => ?_⟩
    dsimp only
    rw [hmem]
    by_cases hx : x = handle
    · rw [hx, update_self]
      exact ⟨fun h0 => (by cases h0), fun h0 => absurd h0.2 h0.1.2⟩
    · rw [update_of_ne hx, h.live x c]
      exact ⟨fun h0 => ⟨⟨h0.1, fun heq => hx (h0.2.symm.trans heq)⟩, h0.2⟩, fun h0 => ⟨h0.1.1, h0.2⟩⟩

theorem Created.step (h : Created s live) {a : Action} {s' : System ν}
    (hnew : ∀ ctx, a = .register ctx → s.creation ctx = none) (hmeets : s.Meets a)
    (hact : s.act a = .ok s') : Created s' (s.after s' live a) := by
  cases a with
  | register ctx =>
    obtain ⟨t, handle, hreg, -, hcreated⟩ := h.step_register (hnew ctx rfl) hmeets
    rw [System.act] at hact
    rw [hreg] at hact
    obtain rfl := Except.ok.inj hact
    rw [System.after]
    dsimp only
    rw [update_self]
    exact hcreated
  | store ctx =>
    rw [System.act] at hact
    split at hact
    · next x hcreation =>
        obtain rfl := Except.ok.inj hact
        exact h.step_store hcreation
    · obtain rfl := Except.ok.inj hact
      exact h
  | retire handle =>
    obtain ⟨t, yes, hretire, hcreated⟩ := h.step_retire hmeets
    rw [System.act, hretire] at hact
    obtain rfl := Except.ok.inj hact
    exact hcreated
  | grab handle =>
    obtain rfl := Except.ok.inj hact
    exact h

theorem created_of_interleaves {harbor : ℕ} (h : Interleaves System.Meets harbor s live) :
    Created s live := by
  induction h with
  | init handleOf => exact created_init harbor handleOf
  | step _ hnew hmeets hact ih => exact ih.step hnew hmeets hact

/-- **Every service stays reachable** in the interleavings whose steps meet what they need: no assertion of
a registration fails, it returns a handle that no service has, and once every creation has stored its
handle, the services that were not retired are found by theirs. -/
theorem creation_interleavings {harbor : ℕ} (h : Interleaves System.Meets harbor s live) :
    (∀ ctx, s.creation ctx = none → s.Meets (.register ctx) → ∃ t handle,
      skynetHandleRegister (update s.handleOf ctx 0) s.storage ctx = .ok (t, handle) ∧
        live handle = none) ∧
    (s.AllStored → ∀ handle ctx, live handle = some ctx → s.handleOf ctx = handle ∧
      skynetHandleGrab s.handleOf s.storage handle = some ctx) := by
  have hcreated := created_of_interleaves h
  refine ⟨fun ctx hnew hmeets => ?_, fun hall handle ctx hlive => ?_⟩
  · obtain ⟨t, handle, hreg, hnone, -⟩ := hcreated.step_register hnew hmeets
    exact ⟨t, handle, hreg, hnone⟩
  · have hfields : ∀ c, some c ∈ s.storage.slot → s.handleOf c = s.result c := fun c hc => by
      rw [System.result]
      cases hcreation : s.creation c with
      | none => exact absurd hcreation (hcreated.mem c hc)
      | some creation =>
        cases creation with
        | stored x => exact hcreated.stored c x hcreation
        | registered x => exact absurd hcreation (hall c x)
    obtain ⟨hmem, hresult⟩ := (hcreated.live handle ctx).mp hlive
    have hfield : s.handleOf ctx = handle := (hfields ctx hmem).trans hresult
    exact ⟨hfield, (skynetHandleGrab_iff (hcreated.slots.congr hfields)).mpr ⟨hmem, hfield⟩⟩

end Steps

theorem Interleaves.next {s s' : System ℕ} {live : ℕ → Option ℕ} {allowed : System ℕ → Action → Prop}
    (h : Interleaves allowed 1 s live) (a : Action)
    (hnew : ∀ ctx, a = .register ctx → s.creation ctx = none) (ha : allowed s a)
    (hact : s.act a = .ok s') : Interleaves allowed 1 s' (s.after s' live a) := h.step hnew ha hact

/-- Two services that stored their handles, the second one first. -/
theorem creation_interleavings_two : ∃ (s : System ℕ) (live : ℕ → Option ℕ),
    Interleaves System.Meets 1 s live ∧ s.AllStored ∧
      skynetHandleGrab s.handleOf s.storage 0x1000001 = some 101 ∧
      skynetHandleGrab s.handleOf s.storage 0x1000002 = some 102 := by
  have h₀ : Interleaves System.Meets 1
      (⟨skynetHandleInit 1, fun _ => 0, fun _ => none⟩ : System ℕ) fun _ => none := .init _
  have h₁ := h₀.next (.register 101) (fun _ h => by cases h; rfl) (.inl (by decide)) rfl
  have h₂ := h₁.next (.register 102) (fun _ h => by cases h; rfl) (.inl (by decide)) rfl
  have h₃ := h₂.next (.store 102) (fun _ h => by cases h) trivial rfl
  have h₄ := h₃.next (.store 101) (fun _ h => by cases h) trivial rfl
  have hreach := (creation_interleavings h₄).2
  refine ⟨_, _, h₄, ?_⟩
  suffices hall : System.AllStored _ from
    ⟨hall, (hreach hall 0x1000001 101 rfl).2, (hreach hall 0x1000002 102 rfl).2⟩
  intro ctx h hctx
  simp only [update_apply] at hctx
  split_ifs at hctx <;> cases hctx

/-! ### A table that grows too early -/

/-- Four services, of which the first has not stored its handle when the fifth is registered: it goes to
slot 0, and is not found when all five have stored theirs. -/
theorem exists_unreachable : ∃ (s : System ℕ) (live : ℕ → Option ℕ),
    Interleaves (fun _ _ => True) 1 s live ∧ s.AllStored ∧ live 0x1000001 = some 101 ∧
      skynetHandleGrab s.handleOf s.storage 0x1000001 = none := by
  have h₀ : Interleaves (fun _ _ => True) 1
      (⟨skynetHandleInit 1, fun _ => 0, fun _ => none⟩ : System ℕ) fun _ => none := .init _
  have h₁ := h₀.next (.register 101) (fun _ h => by cases h; rfl) trivial rfl
  have h₂ := h₁.next (.register 102) (fun _ h => by cases h; rfl) trivial rfl
  have h₃ := h₂.next (.register 103) (fun _ h => by cases h; rfl) trivial rfl
  have h₄ := h₃.next (.register 104) (fun _ h => by cases h; rfl) trivial rfl
  have h₅ := h₄.next (.store 102) (fun _ h => by cases h) trivial rfl
  have h₆ := h₅.next (.store 103) (fun _ h => by cases h) trivial rfl
  have h₇ := h₆.next (.store 104) (fun _ h => by cases h) trivial rfl
  have h₈ := h₇.next (.register 105) (fun _ h => by cases h; rfl) trivial rfl
  have h₉ := h₈.next (.store 101) (fun _ h => by cases h) trivial rfl
  have h₁₀ := h₉.next (.store 105) (fun _ h => by cases h) trivial rfl
  refine ⟨_, _, h₁₀, fun ctx h hctx => ?_, rfl, rfl⟩
  simp only [update_apply] at hctx
  split_ifs at hctx <;> cases hctx

end SourceLibs.SkynetHandle
