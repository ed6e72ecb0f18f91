import SourceLibs.Skynet.HandleTable

/-!
# Skynet — the handle of the system

Handles are tried from `handle_index` on, and their low 24 bits start over at 0, which
`skynet_handle_init` reserves for the system.

* `probe_first`: the handle that is found is the first one with an empty slot.
* `register_reserved_iff`: when it is the one of the system.
* `returned_reserved_iff`: the runs in which it is never returned.
-/

namespace SourceLibs.SkynetHandle
open List Nat Cells

variable {ν : Type*}

/-! ### The first empty slot -/

section Probe
variable {slot : List (Option ℕ)} {handleOf : ℕ → ℕ} {k handleIndex : ℕ}

theorem probe_first {n i hash handle : ℕ} (hk : slot.length = 2 ^ k) (hk' : k ≤ 24)
    (h : probe slot handleIndex n i = some (hash, handle)) :
    ∃ j < i + n, handle = (j + handleIndex) % 2 ^ 24 ∧
      slot[(j + handleIndex) % 2 ^ k]? = some none ∧
      ∀ j', i ≤ j' → j' < j → slot[(j' + handleIndex) % 2 ^ k]? ≠ some none := by
  induction n generalizing i with
  | zero => cases h
  | succ n ih =>
    have hmod : (i + handleIndex) % 2 ^ 24 % 2 ^ k = (i + handleIndex) % 2 ^ k :=
      mod_mod_of_dvd _ (Nat.pow_dvd_pow 2 hk')
    rw [probe, hk, and_mask, and_handleMask, hmod] at h
    split at h
    · next hnone =>
        obtain ⟨-, rfl⟩ := Prod.mk.inj (Option.some.inj h)
        exact ⟨i, by omega, rfl, hnone, fun j' hi hj => absurd hj (Nat.not_lt.mpr hi)⟩
    · next hnot =>
        obtain ⟨j, hj, hhandle, hnone, hbefore⟩ := ih h
        refine ⟨j, by omega, hhandle, hnone, fun j' hi hj' => ?_⟩
        rcases hi.eq_or_lt with rfl | hlt
        · exact hnot
        · exact hbefore j' hlt hj'

/-- The handle that is found is 0 if there is no empty slot up to the last handle. -/
theorem probe_eq_zero_iff {hash handle : ℕ} (hk : slot.length = 2 ^ k) (hk' : k ≤ 24)
    (hpos : 0 < handleIndex) (hle : handleIndex ≤ 2 ^ 24)
    (h : probe slot handleIndex slot.length 0 = some (hash, handle)) :
    handle = 0 ↔ (∀ x, handleIndex ≤ x → x < 2 ^ 24 → slot[x % 2 ^ k]? ≠ some none) ∧
      slot[0]? = some none := by
  obtain ⟨j, hj, rfl, hnone, hbefore⟩ := probe_first hk hk' h
  have hsize : 2 ^ k ≤ 2 ^ 24 := Nat.pow_le_pow_right (by decide) hk'
  have hzero : 2 ^ 24 % 2 ^ k = 0 := mod_eq_zero_of_dvd (Nat.pow_dvd_pow 2 hk')
  rw [Nat.zero_add, hk] at hj
  constructor
  · intro hmod
    have hlast : j + handleIndex = 2 ^ 24 := by omega
    rw [hlast, hzero] at hnone
    refine ⟨fun x hx hx' => ?_, hnone⟩
    have hne := hbefore (x - handleIndex) (Nat.zero_le _) (by omega)
    rwa [Nat.sub_add_cancel hx] at hne
  · rintro ⟨htaken, hfirst⟩
    rcases lt_trichotomy (j + handleIndex) (2 ^ 24) with hlt | heq | hgt
    · exact absurd hnone (htaken _ (Nat.le_add_left _ _) hlt)
    · rw [heq, mod_self]
    · -- The slot of handle 0 was tried before.
      have hne := hbefore (2 ^ 24 - handleIndex) (Nat.zero_le _) (by omega)
      rw [Nat.sub_add_cancel hle, hzero] at hne
      exact absurd hfirst hne

theorem slot_eq_none_iff (hs : Stored handleOf slot) (hpos : 0 < slot.length) (x : ℕ) :
    slot[x % slot.length]? = some none ↔
      ¬ ∃ c, some c ∈ slot ∧ handleOf c % slot.length = x % slot.length := by
  have hlt := mod_lt x hpos
  constructor
  · rintro hnone ⟨c, hc, hmod⟩
    obtain ⟨i, hi⟩ := mem_iff_getElem?.mp hc
    rw [← hmod, hs i c hi, hi] at hnone
    cases hnone
  · intro hnot
    rw [List.getElem?_eq_getElem hlt]
    cases hc : slot[x % slot.length] with
    | none => rfl
    | some c =>
      have hat : slot[x % slot.length]? = some (some c) := by rw [List.getElem?_eq_getElem hlt, hc]
      exact absurd ⟨c, mem_of_getElem? hat, hs _ c hat⟩ hnot

end Probe

/-! ### Registering -/

/-- The number of slots of the table in which `skynet_handle_register` finds an empty one. -/
def HandleStorage.slots (s : HandleStorage ν) : ℕ :=
  if none ∈ s.slot then s.slot.length else s.slot.length * 2

/-- A service is in the slot of a handle. -/
def Taken (s : State ν) (handle : ℕ) : Prop :=
  ∃ c, some c ∈ s.storage.slot ∧
    s.handleOf c % s.storage.slots = handle % s.storage.slots

/-- **The search goes past the last handle**: services are in the slots of all handles from
`handle_index` on, and none in the slot of handle 0. -/
def WrapsAround (s : State ν) : Prop :=
  (∀ handle, s.storage.handleIndex ≤ handle → handle < 2 ^ 24 → Taken s handle) ∧ ¬ Taken s 0

section Register
variable {s : State ν} {t : HandleStorage ν} {ctx handle : ℕ}

/-- In a table that stands for the services of `s`. -/
theorem probe_wraps_iff {new : List (Option ℕ)} {k hash : ℕ} (hk : new.length = 2 ^ k) (hk' : k ≤ 24)
    (hsize : s.storage.slots = new.length) (hs : Stored s.handleOf new)
    (hmem : ∀ c, some c ∈ new ↔ some c ∈ s.storage.slot)
    (hpos : 0 < s.storage.handleIndex) (hle : s.storage.handleIndex ≤ 2 ^ 24)
    (h : probe new s.storage.handleIndex new.length 0 = some (hash, handle)) :
    handle = 0 ↔ WrapsAround s := by
  have hlen : 0 < new.length := hk ▸ Nat.two_pow_pos k
  have htaken : ∀ x, Taken s x ↔ new[x % 2 ^ k]? ≠ some none := by
    intro x
    rw [← hk, Ne, slot_eq_none_iff hs hlen, not_not, Taken, hsize]
    exact exists_congr fun c => and_congr_left' (hmem c).symm
  have hzero : new[0]? = some none ↔ ¬ Taken s 0 := by
    rw [htaken, zero_mod, not_not]
  rw [probe_eq_zero_iff hk hk' hpos hle h, hzero]
  exact and_congr_left' (forall₃_congr fun x _ _ => (htaken x).symm)

theorem live_le_of_register {s : HandleStorage ν} {handleOf : ℕ → ℕ} (hwf : SlotsWf handleOf s)
    (h : skynetHandleRegister handleOf s ctx = .ok (t, handle)) : s.live ≤ handleMask := by
  obtain ⟨k, hk, hlen⟩ := hwf.size
  have hle : s.live ≤ s.slot.length := countP_le_length
  have hmask : handleMask = 2 ^ 24 - 1 := rfl
  rw [skynetHandleRegister, registerLoop] at h
  split at h
  · next hash handle hprobe =>
      have hne : s.live ≠ s.slot.length := fun heq =>
        Bool.false_ne_true (countP_eq_length.mp heq none
          (mem_of_getElem? (probe_some hlen hprobe).1))
      have h24 : 2 ^ k ≤ 2 ^ 24 := Nat.pow_le_pow_right (by decide) hk
      omega
  · dsimp only at h
    split at h
    · next hsize => omega
    · cases h

/-- **When a registration returns the handle of the system.** -/
theorem register_reserved_iff (hwf : SlotsWf s.handleOf s.storage)
    (hpos : 0 < s.storage.handleIndex) (hle : s.storage.handleIndex ≤ 2 ^ 24)
    (h : skynetHandleRegister s.handleOf s.storage ctx = .ok (t, handle)) :
    (handle % 2 ^ 24 = 0 ↔ WrapsAround s) ∧ 0 < t.handleIndex ∧ t.handleIndex ≤ 2 ^ 24 := by
  obtain ⟨k, hk, hlen⟩ := hwf.size
  have hlow : ∀ {x}, x < 2 ^ 24 → (x ||| s.storage.harbor) % 2 ^ 24 = x := fun hx => by
    rw [mod_or_harbor hwf.harbor hx le_rfl, mod_eq_of_lt hx]
  rw [skynetHandleRegister, registerLoop] at h
  split at h
  · next hash x hprobe =>
      obtain ⟨hnone, hlt, -⟩ := probe_some hlen hprobe
      obtain ⟨rfl, rfl⟩ := Prod.mk.inj (Except.ok.inj h)
      have hslots : s.storage.slots = s.storage.slot.length := if_pos (mem_of_getElem? hnone)
      rw [hlow hlt]
      exact ⟨probe_wraps_iff hlen hk hslots hwf.stored (fun _ => Iff.rfl) hpos hle hprobe,
        succ_pos x, hlt⟩
  · next hprobe =>
      -- The table grows.
      have hfull : ∀ j < s.storage.slot.length, ∃ c, s.storage.slot[j]? = some (some c) :=
        fun j hj => full_of_probe_none hlen hk hprobe hj
      obtain ⟨new, hmove, hlen', hstored, hmem⟩ := moveSlots_full hlen hwf.stored hfull
      have hslots : s.storage.slots = new.length := by
        rw [HandleStorage.slots, if_neg, hlen, hlen', Nat.pow_succ]
        intro hnone
        obtain ⟨j, hj⟩ := mem_iff_getElem?.mp hnone
        obtain ⟨c, hc⟩ := hfull j (List.getElem?_eq_some_iff.mp hj).1
        cases hc.symm.trans hj
      dsimp only at h
      split at h
      · next hsize =>
          have hk24 : k + 1 ≤ 24 := by
            refine Nat.lt_of_not_le fun hge => ?_
            have h24 : 2 ^ 24 ≤ 2 ^ k := Nat.pow_le_pow_right (by decide) hge
            have hmask : handleMask = 2 ^ 24 - 1 := rfl
            omega
          rw [hmove] at h
          dsimp only at h
          rw [registerLoop] at h
          dsimp only at h
          split at h
          · next hash x hprobe' =>
              obtain ⟨-, hlt, -⟩ := probe_some hlen' hprobe'
              obtain ⟨rfl, rfl⟩ := Prod.mk.inj (Except.ok.inj h)
              rw [hlow hlt]
              exact ⟨probe_wraps_iff hlen' hk24 hslots hstored hmem hpos hle hprobe',
                succ_pos x, hlt⟩
          · next hprobe' =>
              exact absurd (fun j hj => full_of_probe_none hlen' hk24 hprobe' hj)
                (exists_none_of_grown hlen hwf.stored hlen' hstored fun c => (hmem c).mp)
      · cases h

end Register

/-! ### Runs -/

section Runs
variable [LinearOrder ν] {harbor : ℕ}

/-- The states of a run, with the handles it was given and the states in which they were asked for. -/
inductive Returned (harbor : ℕ) : State ν → List (State ν × ℕ) → Prop where
  | init (handleOf : ℕ → ℕ) : Returned harbor ⟨skynetHandleInit harbor, handleOf⟩ []
  | register {s s' : State ν} {given : List (State ν × ℕ)} {ctx handle : ℕ} :
      Returned harbor s given → some ctx ∉ s.storage.slot →
      call s (.register ctx) = .ok (s', .handle handle) → Returned harbor s' ((s, handle) :: given)
  | retire {s s' : State ν} {given : List (State ν × ℕ)} {handle : ℕ} {answer : Answer} :
      Returned harbor s given → call s (.retire handle) = .ok (s', answer) → Returned harbor s' given

theorem register_of_call {s s' : State ν} {ctx : ℕ} {answer : Answer}
    (h : call s (.register ctx) = .ok (s', answer)) :
    ∃ handle, skynetHandleRegister s.handleOf s.storage ctx = .ok (s'.storage, handle) ∧
      answer = .handle handle := by
  rw [call] at h
  split at h
  · cases h
  · next t handle hreg =>
      obtain ⟨rfl, rfl⟩ := Prod.mk.inj (Except.ok.inj h)
      exact ⟨handle, hreg, rfl⟩

theorem handleIndex_of_retire {s s' : State ν} {handle : ℕ} {answer : Answer}
    (h : call s (.retire handle) = .ok (s', answer)) :
    s'.storage.handleIndex = s.storage.handleIndex := by
  rw [call] at h
  split at h
  · cases h
  · next t yes hretire =>
      obtain ⟨rfl, -⟩ := Prod.mk.inj (Except.ok.inj h)
      rw [skynetHandleRetire] at hretire
      split at hretire
      · split at hretire
        · split at hretire
          · cases hretire
          · obtain ⟨rfl, -⟩ := Prod.mk.inj (Except.ok.inj hretire)
            rfl
        · obtain ⟨rfl, -⟩ := Prod.mk.inj (Except.ok.inj hretire)
          rfl
      · obtain ⟨rfl, -⟩ := Prod.mk.inj (Except.ok.inj hretire)
        rfl

/-- What a run keeps, with which of the handles are that of the system. -/
theorem Returned.wraps {s : State ν} {given : List (State ν × ℕ)} (h : Returned harbor s given) :
    (∃ a, Runs harbor s a) ∧ 0 < s.storage.handleIndex ∧ s.storage.handleIndex ≤ 2 ^ 24 ∧
      ∀ p ∈ given, p.2 % 2 ^ 24 = 0 ↔ WrapsAround p.1 := by
  induction h with
  | init handleOf => exact ⟨⟨_, .init handleOf⟩, Nat.one_pos, Nat.one_le_two_pow, fun p hp => by cases hp⟩
  | @register s s' given ctx handle _ hctx hcall ih =>
    obtain ⟨⟨a, hruns⟩, hpos, hle, hgiven⟩ := ih
    obtain ⟨l, hrep⟩ := rep_of_runs hruns
    obtain ⟨x, hreg, hx⟩ := register_of_call hcall
    obtain rfl := Answer.handle.inj hx
    obtain ⟨hiff, hpos', hle'⟩ := register_reserved_iff hrep.slots hpos hle hreg
    refine ⟨⟨_, hruns.step (c := .register ctx) ⟨hctx, live_le_of_register hrep.slots hreg⟩ hcall⟩,
      hpos', hle', ?_⟩
    exact forall_mem_cons.mpr ⟨hiff, hgiven⟩
  | @retire s s' given handle _ _ hcall ih =>
    obtain ⟨⟨a, hruns⟩, hpos, hle, hgiven⟩ := ih
    have hindex := handleIndex_of_retire hcall
    exact ⟨⟨_, hruns.step (c := .retire handle) trivial hcall⟩, hindex ▸ hpos, hindex ▸ hle, hgiven⟩

/-- **The handle of the system is never given** in a run, just when no registration of it comes to a
table in which the search goes past the last handle. -/
theorem returned_reserved_iff {s : State ν} {given : List (State ν × ℕ)}
    (h : Returned harbor s given) :
    (∀ p ∈ given, p.2 % 2 ^ 24 ≠ 0) ↔ ∀ p ∈ given, ¬ WrapsAround p.1 :=
  forall₂_congr fun p hp => not_congr (h.wraps.2.2.2 p hp)

/-- Two services. -/
theorem returned_reserved_iff_two : ∃ given : List (State ℕ × ℕ),
    given.map Prod.snd = [0x1000002, 0x1000001] ∧
      ((∀ p ∈ given, p.2 % 2 ^ 24 ≠ 0) ↔ ∀ p ∈ given, ¬ WrapsAround p.1) := by
  have h₀ : Returned 1 (⟨skynetHandleInit 1, fun _ => 0⟩ : State ℕ) [] := .init _
  have h₁ := Returned.register h₀ (show some 101 ∉ (skynetHandleInit 1 : HandleStorage ℕ).slot by decide) rfl
  have h₂ := Returned.register h₁ (show some 102 ∉ _ by decide) rfl
  exact ⟨_, rfl, returned_reserved_iff h₂⟩

end Runs

/-! ### A run that goes past the last handle -/

section Rounds
variable {n : ℕ}

/-- The storage after `n` services came and went. -/
def roundStorage (n : ℕ) : HandleStorage ℕ := { skynetHandleInit 0 with handleIndex := n + 1 }

theorem register_round (handleOf : ℕ → ℕ) : call ⟨roundStorage n, handleOf⟩ (.register 0) =
    .ok (⟨{ roundStorage n with
          slot := (List.replicate 4 none).set ((n + 1) % 2 ^ 24 % 2 ^ 2) (some 0)
          handleIndex := (n + 1) % 2 ^ 24 + 1 },
        Function.update handleOf 0 ((n + 1) % 2 ^ 24)⟩, .handle ((n + 1) % 2 ^ 24)) := by
  have hlt : (n + 1) % 2 ^ 24 % 2 ^ 2 < 4 := mod_lt _ (by decide)
  have hprobe : probe (roundStorage n).slot (roundStorage n).handleIndex (roundStorage n).slot.length 0 =
      some ((n + 1) % 2 ^ 24 % 2 ^ 2, (n + 1) % 2 ^ 24) := by
    change probe (List.replicate 4 none) (n + 1) 4 0 = _
    rw [probe, Nat.zero_add, and_handleMask, length_replicate,
      show 4 - 1 = 2 ^ 2 - 1 from rfl, and_mask, List.getElem?_replicate, if_pos hlt]
  have hreg : skynetHandleRegister handleOf (roundStorage n) 0 =
      .ok ({ roundStorage n with
          slot := (List.replicate 4 none).set ((n + 1) % 2 ^ 24 % 2 ^ 2) (some 0)
          handleIndex := (n + 1) % 2 ^ 24 + 1 }, (n + 1) % 2 ^ 24) := by
    rw [skynetHandleRegister, registerLoop]
    rw [hprobe]
    exact congrArg (fun h => Except.ok (_, h)) (Nat.or_zero _)
  rw [call, hreg]

theorem retire_round (handleOf : ℕ → ℕ) (hn : n + 1 < 2 ^ 24) :
    call ⟨{ roundStorage n with
          slot := (List.replicate 4 none).set ((n + 1) % 2 ^ 24 % 2 ^ 2) (some 0)
          handleIndex := (n + 1) % 2 ^ 24 + 1 },
        Function.update handleOf 0 ((n + 1) % 2 ^ 24)⟩ (.retire ((n + 1) % 2 ^ 24)) =
      .ok (⟨roundStorage (n + 1), Function.update handleOf 0 ((n + 1) % 2 ^ 24)⟩, .done true) := by
  have hlt : (n + 1) % 2 ^ 24 % 2 ^ 2 < 4 := mod_lt _ (by decide)
  have hlen : ((List.replicate 4 (none : Option ℕ)).set ((n + 1) % 2 ^ 24 % 2 ^ 2) (some 0)).length =
      2 ^ 2 := by
    rw [length_set, length_replicate]
    rfl
  have hslot : ((List.replicate 4 (none : Option ℕ)).set ((n + 1) % 2 ^ 24 % 2 ^ 2) (some 0)).set
      ((n + 1) % 2 ^ 24 % 2 ^ 2) none = List.replicate 4 none := by
    rw [set_set]
    exact set_replicate_self
  rw [call, skynetHandleRetire]
  dsimp only
  rw [hlen, and_mask, List.getElem?_set_self (by rw [length_replicate]; exact hlt)]
  dsimp only
  rw [if_pos (Function.update_self _ _ _), hslot, mod_eq_of_lt hn]
  rfl

theorem exists_rounds (hn : n < 2 ^ 24) : ∃ handleOf given,
    Returned 0 ⟨roundStorage n, handleOf⟩ given := by
  induction n with
  | zero => exact ⟨_, _, .init fun _ => 0⟩
  | succ n ih =>
    obtain ⟨handleOf, given, hgiven⟩ := ih (lt_of_succ_lt hn)
    have hfree : some 0 ∉ (roundStorage n).slot := fun h => by
      cases eq_of_mem_replicate h
    exact ⟨_, _, (hgiven.register hfree (register_round handleOf)).retire (retire_round handleOf hn)⟩

/-- After 2^24 - 1 services the next one is given the handle 0. -/
theorem exists_returned_zero : ∃ (s : State ℕ) (given : List (State ℕ × ℕ)),
    Returned 0 s given ∧ ∃ p ∈ given, p.2 = 0 := by
  obtain ⟨handleOf, given, hgiven⟩ := exists_rounds (n := 2 ^ 24 - 1) (by decide)
  have hfree : some 0 ∉ (roundStorage (2 ^ 24 - 1)).slot := fun h => by
    cases eq_of_mem_replicate h
  exact ⟨_, _, hgiven.register hfree (register_round handleOf), _, mem_cons_self, rfl⟩

end Rounds

end SourceLibs.SkynetHandle
