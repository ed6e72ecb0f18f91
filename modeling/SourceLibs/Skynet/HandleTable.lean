import SourceLibs.Skynet.Handle
import Mathlib.Data.Nat.ModEq
import Mathlib.Data.List.Nodup

/-!
# Skynet — the table of handles is exact

A service is in the slot that the low bits of its handle name.  The number of slots divides the number of
handles, so the handles that are tried go through all slots, and a full table can grow without a
collision.

* `registerLoop_spec`: a new handle, in an empty slot.
* `Services`: what the table stands for, and what the calls do to it.
* `handleTable_runs`: the table stands for it in every run.
-/

namespace SourceLibs.SkynetHandle
open List Function Cells

variable {ν : Type*}

/-! ### Slots -/

section Slots
variable {slot : List (Option ℕ)} {handleOf : ℕ → ℕ} {k handleIndex ctx : ℕ}

theorem and_mask (x k : ℕ) : x &&& (2 ^ k - 1) = x % 2 ^ k := Nat.and_two_pow_sub_one_eq_mod x k

theorem and_handleMask (x : ℕ) : x &&& handleMask = x % 2 ^ 24 := and_mask x 24

/-- Each service is in the slot of its handle. -/
def Stored (handleOf : ℕ → ℕ) (slot : List (Option ℕ)) : Prop :=
  ∀ i c, slot[i]? = some (some c) → handleOf c % slot.length = i

theorem probe_some {n i hash handle : ℕ} (hk : slot.length = 2 ^ k)
    (h : probe slot handleIndex n i = some (hash, handle)) :
    slot[hash]? = some none ∧ handle < 2 ^ 24 ∧ hash = handle % 2 ^ k := by
  induction n generalizing i with
  | zero => exact nomatch h
  | succ n ih =>
    rw [probe] at h
    split at h
    · next hnone =>
        obtain ⟨rfl, rfl⟩ := Prod.mk.inj (Option.some.inj h)
        refine ⟨hnone, ?_, by rw [hk, and_mask]⟩
        rw [and_handleMask]
        exact Nat.mod_lt _ (by decide)
    · exact ih h

theorem probe_none {n i : ℕ} (hk : slot.length = 2 ^ k) (hk' : k ≤ 24)
    (h : probe slot handleIndex n i = none) : ∀ j, i ≤ j → j < i + n →
    slot[(j + handleIndex) % 2 ^ k]? ≠ some none := by
  induction n generalizing i with
  | zero => exact fun j hj hj' => absurd hj' (Nat.not_lt.mpr hj)
  | succ n ih =>
    intro j hj hj'
    rw [probe] at h
    split at h
    · exact nomatch h
    · next hnot =>
        rcases hj.eq_or_lt with rfl | hlt
        · rw [hk, and_mask, and_handleMask, Nat.mod_mod_of_dvd _ (Nat.pow_dvd_pow 2 hk')] at hnot
          exact hnot
        · exact ih h j hlt (by omega)

/-- **All slots are tried.** -/
theorem full_of_probe_none (hk : slot.length = 2 ^ k) (hk' : k ≤ 24)
    (h : probe slot handleIndex slot.length 0 = none) {j : ℕ} (hj : j < slot.length) :
    ∃ c, slot[j]? = some (some c) := by
  have hpos : 0 < 2 ^ k := Nat.two_pow_pos k
  have hmod : ((j + 2 ^ k - handleIndex % 2 ^ k) % 2 ^ k + handleIndex) % 2 ^ k = j := by
    have hle := (Nat.mod_lt handleIndex hpos).le
    rw [Nat.mod_add_mod, ← Nat.add_mod_mod, show j + 2 ^ k - handleIndex % 2 ^ k +
      handleIndex % 2 ^ k = j + 2 ^ k by omega, Nat.add_mod_right, Nat.mod_eq_of_lt (hk ▸ hj)]
  have hne := probe_none hk hk' h _ (Nat.zero_le _)
    (by rw [hk, Nat.zero_add]; exact Nat.mod_lt (j + 2 ^ k - handleIndex % 2 ^ k) hpos)
  rw [hmod, List.getElem?_eq_getElem hj] at hne
  cases hc : slot[j] with
  | none => exact absurd (congrArg some hc) hne
  | some c => exact ⟨c, by rw [List.getElem?_eq_getElem hj, hc]⟩

theorem mem_set_of_none {i c d : ℕ} (h : slot[i]? = some none) :
    some d ∈ slot.set i (some c) ↔ some d ∈ slot ∨ d = c := by
  have hi : i < slot.length := (List.getElem?_eq_some_iff.mp h).1
  rw [mem_iff_getElem?, mem_iff_getElem?]
  constructor
  · rintro ⟨j, hj⟩
    by_cases hij : i = j
    · rw [← hij, List.getElem?_set_self hi] at hj
      exact .inr (Option.some.inj (Option.some.inj hj)).symm
    · rw [List.getElem?_set_ne hij] at hj
      exact .inl ⟨j, hj⟩
  · rintro (⟨j, hj⟩ | rfl)
    · have hij : i ≠ j := by
        rintro rfl
        rw [h] at hj
        exact nomatch hj
      exact ⟨j, by rw [List.getElem?_set_ne hij, hj]⟩
    · exact ⟨i, List.getElem?_set_self hi⟩

/-- **Growing**: no two services go to one slot. -/
theorem moveSlots_spec {m : ℕ} (hm : 0 < m) (hmask : ∀ x, x &&& (2 * m - 1) = x % (2 * m))
    (rest : List (Option ℕ)) : ∀ (i : ℕ) (new : List (Option ℕ)), new.length = 2 * m →
      (∀ j c, rest[j]? = some (some c) → handleOf c % m = i + j) →
      (∀ o ∈ rest, o ≠ none) → i + rest.length ≤ m →
      (∀ j c, new[j]? = some (some c) → handleOf c % (2 * m) = j ∧ j % m < i) →
      ∃ new', moveSlots handleOf (2 * m - 1) rest new = .ok new' ∧ new'.length = 2 * m ∧
        (∀ j c, new'[j]? = some (some c) → handleOf c % (2 * m) = j) ∧
        ∀ c, some c ∈ new' ↔ some c ∈ new ∨ some c ∈ rest := by
  induction rest with
  | nil =>
    intro i new hlen _ _ _ hnew
    exact ⟨new, rfl, hlen, fun j c hj => (hnew j c hj).1, fun c => by simp⟩
  | cons o rest ih =>
    intro i new hlen hrest hfull hi hnew
    obtain ⟨c, rfl⟩ := Option.ne_none_iff_exists'.mp (hfull o mem_cons_self)
    rw [length_cons] at hi
    have hc := hrest 0 c rfl
    have hlt : handleOf c % (2 * m) < new.length := by
      rw [hlen]
      exact Nat.mod_lt _ (by omega)
    have hmod : handleOf c % (2 * m) % m = i := by
      rw [Nat.mod_mod_of_dvd _ (Dvd.intro_left 2 rfl)]
      exact hc
    -- The slot is empty, since only earlier services are there already.
    have hempty : new[handleOf c % (2 * m)]? = some none := by
      rw [List.getElem?_eq_getElem hlt]
      cases hd : new[handleOf c % (2 * m)] with
      | none => rfl
      | some d =>
        have := (hnew _ d (by rw [List.getElem?_eq_getElem hlt, hd])).2
        omega
    obtain ⟨new', hmove, hlen', hstored, hmem⟩ := ih (i + 1)
      (new.set (handleOf c % (2 * m)) (some c)) (by rw [length_set, hlen])
      (fun j d hj => by rw [hrest (j + 1) d hj]; omega)
      (fun o ho => hfull o (mem_cons_of_mem _ ho)) (by omega) (fun j d hj => by
        by_cases hjc : handleOf c % (2 * m) = j
        · rw [hjc, List.getElem?_set_self (hjc ▸ hlt)] at hj
          obtain rfl := Option.some.inj (Option.some.inj hj)
          exact ⟨hjc, by rw [← hjc, hmod]; exact Nat.lt_succ_self i⟩
        · rw [List.getElem?_set_ne hjc] at hj
          exact ⟨(hnew j d hj).1, Nat.lt_succ_of_lt (hnew j d hj).2⟩)
    refine ⟨new', ?_, hlen', hstored, fun d => ?_⟩
    · rw [moveSlots, hmask, hempty]
      exact hmove
    · rw [hmem, mem_set_of_none hempty, mem_cons, Option.some_inj, or_assoc]

theorem moveSlots_full (hk : slot.length = 2 ^ k) (hs : Stored handleOf slot)
    (hfull : ∀ j < slot.length, ∃ c, slot[j]? = some (some c)) :
    ∃ new, moveSlots handleOf (slot.length * 2 - 1) slot
        (List.replicate (slot.length * 2) none) = .ok new ∧ new.length = 2 ^ (k + 1) ∧
      Stored handleOf new ∧ ∀ c, some c ∈ new ↔ some c ∈ slot := by
  have hm : 2 * slot.length = 2 ^ (k + 1) := by rw [hk, Nat.pow_succ, Nat.mul_comm]
  obtain ⟨new, hmove, hlen, hstored, hmem⟩ := moveSlots_spec (m := slot.length)
    (hk ▸ Nat.two_pow_pos k) (fun x => by rw [hm, and_mask]) slot 0
    (List.replicate (2 * slot.length) none) length_replicate
    (fun j c hj => by rw [hs j c hj, Nat.zero_add])
    (fun o ho => by
      obtain ⟨j, hj⟩ := mem_iff_getElem?.mp ho
      obtain ⟨c, hc⟩ := hfull j (List.getElem?_eq_some_iff.mp hj).1
      rw [← Option.some.inj (hc.symm.trans hj)]
      exact Option.some_ne_none c)
    (Nat.zero_add _).le
    (fun j c hj => by
      rw [List.getElem?_replicate] at hj
      split at hj
      · exact nomatch hj
      · exact nomatch hj)
  refine ⟨new, by rw [Nat.mul_comm]; exact hmove, hlen.trans hm, fun j c hj => ?_, fun c => ?_⟩
  · rw [hlen]
    exact hstored j c hj
  · rw [hmem, or_iff_right]
    intro hc
    exact nomatch eq_of_mem_replicate hc

theorem exists_none_of_grown {new : List (Option ℕ)} (hk : slot.length = 2 ^ k)
    (hs : Stored handleOf slot) (hk' : new.length = 2 ^ (k + 1)) (hs' : Stored handleOf new)
    (hmem : ∀ c, some c ∈ new → some c ∈ slot) :
    ¬ ∀ j < new.length, ∃ c, new[j]? = some (some c) := by
  intro hfull
  have hpos := Nat.two_pow_pos k
  have hdouble : new.length = 2 * slot.length := by rw [hk, hk', Nat.pow_succ, Nat.mul_comm]
  obtain ⟨c, hc⟩ := hfull 0 (by omega)
  obtain ⟨d, hd⟩ := hfull slot.length (by omega)
  -- Both services come from the first slot.
  have hslot : ∀ {j e}, new[j]? = some (some e) → j % slot.length = 0 → slot[0]? = some (some e) := by
    intro j e he hj
    obtain ⟨i, hi⟩ := mem_iff_getElem?.mp (hmem e (mem_of_getElem? he))
    have h1 := hs i e hi
    have h2 := hs' j e he
    rw [hdouble] at h2
    rw [← Nat.mod_mod_of_dvd _ (Dvd.intro_left 2 rfl), h2, hj] at h1
    rw [← h1] at hi
    exact hi
  have hcd := Option.some.inj (Option.some.inj
    ((hslot hc (Nat.zero_mod _)).symm.trans (hslot hd (Nat.mod_self _))))
  have h1 := hs' 0 c hc
  have h2 := hs' slot.length d hd
  rw [← hcd] at h2
  omega

end Slots

/-! ### Registering -/

/-- The number of services. -/
def HandleStorage.live (s : HandleStorage ν) : ℕ := s.slot.countP Option.isSome

/-- The table of the services. -/
structure SlotsWf (handleOf : ℕ → ℕ) (s : HandleStorage ν) : Prop where
  size : ∃ k ≤ 24, s.slot.length = 2 ^ k
  harbor : 2 ^ 24 ∣ s.harbor
  stored : Stored handleOf s.slot

section Register
variable {s : HandleStorage ν} {handleOf : ℕ → ℕ} {ctx : ℕ}

theorem mod_or_harbor {x k : ℕ} (hh : 2 ^ 24 ∣ s.harbor) (hx : x < 2 ^ 24) (hk : k ≤ 24) :
    (x ||| s.harbor) % 2 ^ k = x % 2 ^ k := by
  obtain ⟨q, hq⟩ := hh
  have hdvd : 2 ^ k ∣ 2 ^ 24 * q := Dvd.dvd.mul_right (Nat.pow_dvd_pow 2 hk) q
  rw [Nat.or_comm, hq, ← Nat.two_pow_add_eq_or_of_lt hx, Nat.add_mod, Nat.mod_eq_zero_of_dvd hdvd,
    Nat.zero_add, Nat.mod_mod]

theorem probe_ok (h : SlotsWf handleOf s) (hctx : some ctx ∉ s.slot) {hash handle : ℕ}
    (hprobe : probe s.slot s.handleIndex s.slot.length 0 = some (hash, handle)) :
    SlotsWf (update handleOf ctx (handle ||| s.harbor))
        { s with
          slot := s.slot.set hash (some ctx)
          handleIndex := handle + 1 } ∧
      (∀ c, some c ∈ s.slot.set hash (some ctx) ↔ some c ∈ s.slot ∨ c = ctx) ∧
      ∀ c, some c ∈ s.slot → handleOf c ≠ handle ||| s.harbor := by
  obtain ⟨k, hk, hlen⟩ := h.size
  obtain ⟨hnone, hlt, hhash⟩ := probe_some hlen hprobe
  have hslot : (handle ||| s.harbor) % s.slot.length = hash := by
    rw [hlen, mod_or_harbor h.harbor hlt hk, hhash]
  refine ⟨⟨⟨k, hk, by rw [length_set, hlen]⟩, h.harbor, fun i c hc => ?_⟩,
    fun c => mem_set_of_none hnone, fun c hc heq => ?_⟩
  · dsimp only at hc ⊢
    rw [length_set]
    by_cases hi : hash = i
    · subst hi
      rw [List.getElem?_set_self (List.getElem?_eq_some_iff.mp hnone).1] at hc
      rw [← Option.some.inj (Option.some.inj hc), update_self, hslot]
    · rw [List.getElem?_set_ne hi] at hc
      have hne : c ≠ ctx := fun h0 => hctx (h0 ▸ mem_of_getElem? hc)
      rw [update_of_ne hne]
      exact h.stored i c hc
  · obtain ⟨i, hi⟩ := mem_iff_getElem?.mp hc
    have hat := h.stored i c hi
    rw [heq, hslot] at hat
    rw [← hat, hnone] at hi
    exact nomatch hi

/-- **`skynet_handle_register`** returns a handle that no service has. -/
theorem skynetHandleRegister_ok (h : SlotsWf handleOf s) (hctx : some ctx ∉ s.slot)
    (hlive : s.live ≤ handleMask) :
    ∃ s' handle, skynetHandleRegister handleOf s ctx = .ok (s', handle) ∧
      SlotsWf (update handleOf ctx handle) s' ∧
      (∀ c, some c ∈ s'.slot ↔ some c ∈ s.slot ∨ c = ctx) ∧
      (∀ c, some c ∈ s.slot → handleOf c ≠ handle) ∧
      s'.name = s.name ∧ s'.nameCount = s.nameCount := by
  rw [skynetHandleRegister, registerLoop]
  cases hprobe : probe s.slot s.handleIndex s.slot.length 0 with
  | some r =>
    obtain ⟨hash, handle⟩ := r
    obtain ⟨hwf, hmem, hne⟩ := probe_ok h hctx hprobe
    exact ⟨_, _, rfl, hwf, hmem, hne, rfl, rfl⟩
  | none =>
    obtain ⟨k, hk, hlen⟩ := h.size
    have hfull : ∀ j < s.slot.length, ∃ c, s.slot[j]? = some (some c) := fun j hj =>
      full_of_probe_none hlen hk hprobe hj
    -- All slots are taken, so there are fewer than there may be.
    have hcount : s.live = s.slot.length := by
      rw [HandleStorage.live, countP_eq_length]
      intro o ho
      obtain ⟨j, hj⟩ := mem_iff_getElem?.mp ho
      obtain ⟨c, hc⟩ := hfull j (List.getElem?_eq_some_iff.mp hj).1
      rw [← Option.some.inj (hc.symm.trans hj)]
      rfl
    have hk24 : k < 24 := by
      refine (Nat.pow_lt_pow_iff_right (by decide : 1 < 2)).mp ?_
      rw [← hlen, ← hcount]
      exact Nat.lt_of_le_of_lt hlive (by decide)
    have hsize : s.slot.length * 2 - 1 ≤ handleMask := by
      have h24 : 2 ^ (k + 1) ≤ 2 ^ 24 := Nat.pow_le_pow_right (by decide) hk24
      rw [hlen, ← Nat.pow_succ]
      exact Nat.sub_le_sub_right h24 1
    obtain ⟨new, hmove, hlen', hstored, hmem⟩ := moveSlots_full hlen h.stored hfull
    have hwf : SlotsWf handleOf { s with slot := new } := ⟨⟨k + 1, hk24, hlen'⟩, h.harbor, hstored⟩
    have hctx' : some ctx ∉ new := fun hc => hctx ((hmem ctx).mp hc)
    dsimp only
    rw [if_pos hsize, hmove]
    dsimp only
    rw [registerLoop]
    dsimp only
    cases hprobe' : probe new s.handleIndex new.length 0 with
    | none =>
      exact absurd (fun j hj => full_of_probe_none hlen' hk24 hprobe' hj)
        (exists_none_of_grown hlen h.stored hlen' hstored fun c => (hmem c).mp)
    | some r =>
      obtain ⟨hash, handle⟩ := r
      obtain ⟨hwf', hmem', hne⟩ := probe_ok hwf hctx' hprobe'
      exact ⟨_, _, rfl, hwf', fun c => (hmem' c).trans (or_congr_left (hmem c)),
        fun c hc => hne c ((hmem c).mpr hc), rfl, rfl⟩

/-- **`skynet_handle_grab`** finds the service that has a handle. -/
theorem skynetHandleGrab_iff (h : SlotsWf handleOf s) {handle c : ℕ} :
    skynetHandleGrab handleOf s handle = some c ↔ some c ∈ s.slot ∧ handleOf c = handle := by
  obtain ⟨k, -, hlen⟩ := h.size
  rw [skynetHandleGrab, hlen, and_mask, ← hlen]
  constructor
  · intro hgrab
    split at hgrab
    · next ctx hslot =>
        split at hgrab
        · next heq =>
            obtain rfl := Option.some.inj hgrab
            exact ⟨mem_of_getElem? hslot, heq⟩
        · exact nomatch hgrab
    · exact nomatch hgrab
  · rintro ⟨hc, rfl⟩
    obtain ⟨i, hi⟩ := mem_iff_getElem?.mp hc
    rw [h.stored i c hi, hi]
    exact if_pos rfl

end Register

/-! ### Names -/

/-- The table of the names. -/
structure NamesWf [LinearOrder ν] (s : HandleStorage ν) (l : List (HandleName ν)) : Prop where
  holds : Holds s.name l
  count : s.nameCount = l.length
  sorted : l.Pairwise fun a b => a.name < b.name
  cap : ∃ k, 1 ≤ k ∧ k ≤ 30 ∧ s.name.length = 2 ^ k

section Names
variable [LinearOrder ν] {s : HandleStorage ν} {l : List (HandleName ν)}

theorem monotone_strcmp (h : l.Pairwise fun a b => a.name < b.name) (name : ν) :
    Monotone (fun n : HandleName ν => strcmp n.name name) l := by
  refine h.imp fun {a b} hab => ⟨fun hb => ?_, fun ha => ?_⟩
  · exact compare_lt_iff_lt.mpr (hab.trans_le (compare_le_iff_le.mp hb))
  · exact compare_gt_iff_gt.mpr ((compare_ge_iff_ge.mp ha).trans_lt hab)

theorem search_names (h : NamesWf s l) (name : ν) :
    ∃ r, search s.name (fun n => strcmp n.name name) (s.nameCount + 1) 0 s.nameCount = some r ∧
      Found (fun n => strcmp n.name name) l r := by
  refine search_spec h.holds (monotone_strcmp h.sorted name) _ _ _ (Nat.zero_le _) h.count.le
    (by omega) (fun j b hj => absurd hj (Nat.not_lt_zero j)) fun j b hj hb => ?_
  have := (List.getElem?_eq_some_iff.mp hb).1
  rw [h.count] at hj
  omega

/-- **Names** that are not in the table. -/
theorem notMem_of_place {name : ν} {p : ℕ}
    (hlow : ∀ b ∈ l.take p, strcmp b.name name = .lt) (hhigh : ∀ b ∈ l.drop p, strcmp b.name name = .gt) :
    ∀ b ∈ l, b.name ≠ name := by
  intro b hb heq
  rw [← take_append_drop p l] at hb
  have hself : strcmp b.name name = .eq := compare_eq_iff_eq.mpr heq
  rcases mem_append.mp hb with hb | hb
  · have := hlow b hb
    rw [hself] at this
    exact nomatch this
  · have := hhigh b hb
    rw [hself] at this
    exact nomatch this

theorem skynetHandleFindname_eq (h : NamesWf s l) (name : ν) :
    (∃ b ∈ l, b.name = name ∧ skynetHandleFindname s name = .ok b.handle) ∨
      (∀ b ∈ l, b.name ≠ name) ∧ skynetHandleFindname s name = .ok 0 := by
  obtain ⟨r, hsearch, hfound⟩ := search_names h name
  rw [skynetHandleFindname, hsearch]
  cases hfound with
  | here hb hcmp => exact .inl ⟨_, mem_of_getElem? hb, compare_eq_iff_eq.mp hcmp, rfl⟩
  | place _ hlow hhigh => exact .inr ⟨notMem_of_place hlow hhigh, rfl⟩

/-- **`_insert_name_before`** keeps the names in order. -/
theorem insertNameBefore_ok (h : NamesWf s l) {name : ν} (handle : ℕ) {p : ℕ} (hp : p ≤ l.length)
    (hlow : ∀ b ∈ l.take p, b.name < name) (hhigh : ∀ b ∈ l.drop p, name < b.name)
    (hroom : s.nameCount < maxSlotSize) :
    ∃ s', insertNameBefore s name handle p = .ok s' ∧
      NamesWf s' (l.take p ++ ⟨name, handle⟩ :: l.drop p) ∧ s'.slot = s.slot ∧ s'.harbor = s.harbor := by
  have hsorted : (l.take p ++ ⟨name, handle⟩ :: l.drop p).Pairwise
      fun a b : HandleName ν => a.name < b.name := by
    rw [pairwise_append, pairwise_cons]
    refine ⟨h.sorted.sublist (take_sublist p l), ⟨hhigh, h.sorted.sublist (drop_sublist p l)⟩,
      fun a ha b hb => ?_⟩
    rcases mem_cons.mp hb with rfl | hb
    · exact hlow a ha
    · exact (hlow a ha).trans (hhigh b hb)
  have hlen : (l.take p ++ (⟨name, handle⟩ : HandleName ν) :: l.drop p).length = l.length + 1 := by
    rw [length_append, length_cons, length_take_of_le hp, length_drop]
    omega
  have hcount := h.count
  have hle := h.holds.length_le
  obtain ⟨k, hk, hk', hcap⟩ := h.cap
  have hpos : 0 < s.name.length := hcap ▸ Nat.two_pow_pos k
  -- Whatever made the room, the element comes between the two parts.
  have hdone : ∀ n : List (Option (HandleName ν)), (∃ k, 1 ≤ k ∧ k ≤ 30 ∧ n.length = 2 ^ k) →
      l.length < n.length → (∀ j < p, read n j = l[j]?) →
      (∀ j, p ≤ j → j < l.length → read n (j + 1) = l[j]?) →
      ∃ n', write n p ⟨name, handle⟩ = some n' ∧
        NamesWf { s with name := n', nameCount := s.nameCount + 1 }
          (l.take p ++ ⟨name, handle⟩ :: l.drop p) := by
    intro n hn hroom hfirst hrest
    obtain ⟨n', hwrite, hlen', hself, hother⟩ :=
      write_spec (show p < n.length by omega) (⟨name, handle⟩ : HandleName ν)
    refine ⟨n', hwrite, insert_holds hp (fun j hj => ?_) hself fun j hj hj' => ?_, ?_, hsorted, ?_⟩
    · rw [hother j (by omega), hfirst j hj]
    · rw [hother _ (by omega), hrest j hj hj']
    · rw [hlen, hcount]
    · rw [hlen']
      exact hn
  rw [insertNameBefore]
  by_cases hfull : s.nameCount ≥ s.name.length
  · -- A larger array.
    have hk30 : k < 30 := by
      refine (Nat.pow_lt_pow_iff_right (by decide : 1 < 2)).mp ?_
      rw [← hcap]
      exact Nat.lt_of_le_of_lt hfull hroom
    have hcap' : s.name.length * 2 ≤ maxSlotSize := by
      rw [hcap, ← Nat.pow_succ]
      exact Nat.pow_le_pow_right (by decide) hk30
    obtain ⟨n₁, hcopy₁, hlen₁, hin₁, -⟩ := copy_spec h.holds 0 p 0
      (List.replicate (s.name.length * 2) none) (by omega) (by rw [length_replicate]; omega)
    rw [length_replicate] at hlen₁
    obtain ⟨n₂, hcopy₂, hlen₂, hin₂, hout₂⟩ := copy_spec h.holds 1 (s.nameCount - p) p n₁
      (by omega) (by omega)
    obtain ⟨n', hwrite, hwf⟩ := hdone n₂ ⟨k + 1, by omega, hk30, by rw [hlen₂, hlen₁, hcap, Nat.pow_succ]⟩
      (by omega)
      (fun j hj => by rw [hout₂ j (.inl (by omega)), ← hin₁ j (Nat.zero_le j) (by omega), Nat.add_zero])
      fun j hj hj' => hin₂ j hj (by omega)
    rw [if_pos hfull, if_pos hcap', hcopy₁]
    dsimp only
    rw [hcopy₂]
    dsimp only
    rw [hwrite]
    exact ⟨_, rfl, hwf, rfl, rfl⟩
  · obtain ⟨n, hshift, hlen', hin, hout⟩ := shiftUp_spec p (s.nameCount - p) s.name
      (fun j hj hj' => h.holds j (by omega)) (by omega) (by omega)
    obtain ⟨n', hwrite, hwf⟩ := hdone n ⟨k, hk, hk', hlen'.trans hcap⟩ (by omega)
      (fun j hj => by rw [hout j (by omega), h.holds j (by omega)])
      fun j hj hj' => hin j hj (by omega)
    rw [if_neg hfull, hshift]
    dsimp only
    rw [hwrite]
    exact ⟨_, rfl, hwf, rfl, rfl⟩

theorem insertNameBefore_full (h : NamesWf s l) {name : ν} {handle p : ℕ}
    (hfull : maxSlotSize ≤ s.nameCount) :
    insertNameBefore s name handle p = .error .nameCap := by
  obtain ⟨k, -, hk, hcap⟩ := h.cap
  have hmax : s.name.length ≤ maxSlotSize := by
    rw [hcap]
    exact Nat.pow_le_pow_right (by decide) hk
  have hle := h.holds.length_le
  have hcount := h.count
  have hpos : 0 < maxSlotSize := by decide
  have hnot : ¬ s.name.length * 2 ≤ maxSlotSize := by omega
  rw [insertNameBefore, if_pos (show s.nameCount ≥ s.name.length by omega), if_neg hnot]

/-- **`skynet_handle_retire`** of a service removes its names. -/
theorem pack_names (h : NamesWf s l) (handle : ℕ) :
    ∃ name, pack (fun n => n.handle = handle) s.nameCount 0 0 s.name =
        some (name, (l.filter fun n => !decide (n.handle = handle)).length) ∧
      NamesWf { s with name := name, nameCount := (l.filter fun n => !decide (n.handle = handle)).length }
        (l.filter fun n => !decide (n.handle = handle)) := by
  obtain ⟨name, hpack, hlen, hholds⟩ := pack_spec (fun n => decide (n.handle = handle)) s.nameCount 0 []
    s.name (holds_nil _) (Nat.zero_le _) (by rw [Nat.zero_add, h.count]) h.holds.length_le
    fun j _ hj => h.holds j hj
  rw [nil_append, drop_zero] at hpack hholds
  exact ⟨name, hpack, hholds, rfl, h.sorted.sublist filter_sublist, by rw [hlen]; exact h.cap⟩

end Names

/-! ### Retiring -/

section Retire
variable {s : HandleStorage ν} {handleOf : ℕ → ℕ} {handle ctx : ℕ}

theorem skynetHandleRetire_none (h : skynetHandleGrab handleOf s handle = none) :
    skynetHandleRetire handleOf s handle = .ok (s, false) := by
  rw [skynetHandleGrab] at h
  rw [skynetHandleRetire]
  split
  · next ctx hslot =>
      rw [hslot] at h
      dsimp only at h
      split at h
      · exact nomatch h
      · next hne => rw [if_neg hne]
  · rfl

/-- **`skynet_handle_retire`** of a service. -/
theorem skynetHandleRetire_some [LinearOrder ν] {l : List (HandleName ν)} (h : SlotsWf handleOf s)
    (hn : NamesWf s l) (hgrab : skynetHandleGrab handleOf s handle = some ctx) :
    ∃ t, skynetHandleRetire handleOf s handle = .ok (t, true) ∧ SlotsWf handleOf t ∧
      NamesWf t (l.filter fun n => !decide (n.handle = handle)) ∧
      ∀ c, some c ∈ t.slot ↔ some c ∈ s.slot ∧ handleOf c ≠ handle := by
  obtain ⟨k, hk, hlen⟩ := h.size
  obtain ⟨hmem, hctx⟩ := (skynetHandleGrab_iff h).mp hgrab
  obtain ⟨i, hi⟩ := mem_iff_getElem?.mp hmem
  have hat := h.stored i ctx hi
  have hhash : handle &&& (s.slot.length - 1) = i := by
    rw [hlen, and_mask, ← hlen, ← hctx, hat]
  obtain ⟨name, hpack, hnames⟩ := pack_names hn handle
  have hget : ∀ j, (s.slot.set i none)[j]? = if i = j then some none else s.slot[j]? := by
    intro j
    by_cases hij : i = j
    · rw [if_pos hij, ← hij, List.getElem?_set_self (List.getElem?_eq_some_iff.mp hi).1]
    · rw [if_neg hij, List.getElem?_set_ne hij]
  refine ⟨{ s with
            slot := s.slot.set i none
            name := name
            nameCount := (l.filter fun n => !decide (n.handle = handle)).length }, ?_,
    ⟨⟨k, hk, by rw [length_set, hlen]⟩, h.harbor, fun j c hj => ?_⟩,
    ⟨hnames.holds, rfl, hnames.sorted, hnames.cap⟩, fun c => ?_⟩
  · rw [skynetHandleRetire, hhash, hi]
    dsimp only
    rw [if_pos hctx, hpack]
  · dsimp only at hj ⊢
    rw [hget] at hj
    rw [length_set]
    split at hj
    · exact nomatch hj
    · exact h.stored j c hj
  · dsimp only
    rw [mem_iff_getElem?]
    constructor
    · rintro ⟨j, hj⟩
      rw [hget] at hj
      split at hj
      · exact nomatch hj
      · next hij =>
          refine ⟨mem_of_getElem? hj, fun heq => hij ?_⟩
          rw [← hat, ← h.stored j c hj, heq, hctx]
    · rintro ⟨hc, hne⟩
      obtain ⟨j, hj⟩ := mem_iff_getElem?.mp hc
      refine ⟨j, ?_⟩
      rw [hget, if_neg, hj]
      rintro rfl
      rw [Option.some.inj (Option.some.inj (hi.symm.trans hj))] at hctx
      exact hne hctx

end Retire

/-! ### Runs -/

/-- What the tables stand for: who is registered under a handle, and the handle of a name. -/
structure Services (ν : Type*) where
  live : ℕ → Option ℕ
  names : ν → Option ℕ

section Runs
variable [LinearOrder ν]

/-- Nobody is registered. -/
def Services.empty : Services ν := ⟨fun _ => none, fun _ => none⟩

/-- What a call does; a service that is retired loses its names, and a name that is bound stays so. -/
def Services.after (a : Services ν) : Call ν → Answer → Services ν
  | .register ctx, .handle h => { a with live := update a.live h (some ctx) }
  | .retire h, _             =>
    match a.live h with
    | none   => a
    | some _ =>
      ⟨update a.live h none, fun n => if a.names n = some h then none else a.names n⟩
  | .namehandle h name, _    =>
    match a.names name with
    | none   => { a with names := update a.names name (some h) }
    | some _ => a
  | _, _                     => a

/-- What a call should return. -/
def Services.Right (a : Services ν) : Call ν → Answer → Prop
  | .register _, .handle h        => a.live h = none
  | .retire h, .done yes          => yes = (a.live h).isSome
  | .grab h, .context ctx         => ctx = a.live h
  | .namehandle _ name, .done yes => yes = (a.names name).isNone
  | .findname name, .handle h     => h = (a.names name).getD 0
  | _, _                          => False

/-- A context is registered once at a time, and there are fewer services than handles. -/
def Allowed (s : State ν) : Call ν → Prop
  | .register ctx => some ctx ∉ s.storage.slot ∧ s.storage.live ≤ handleMask
  | _             => True

/-- The states of a run, with what they stand for. -/
inductive Runs (harbor : ℕ) : State ν → Services ν → Prop where
  | init (handleOf : ℕ → ℕ) : Runs harbor ⟨skynetHandleInit harbor, handleOf⟩ Services.empty
  | step {s s' : State ν} {a : Services ν} {c : Call ν} {answer : Answer} : Runs harbor s a →
      Allowed s c → call s c = .ok (s', answer) → Runs harbor s' (a.after c answer)

/-- The tables are exact. -/
structure Exact (s : State ν) (a : Services ν) : Prop where
  stored : ∀ h c, a.live h = some c → s.handleOf c = h ∧
    s.storage.slot[h &&& (s.storage.slot.length - 1)]? = some (some c)
  different : ∀ i j c d : ℕ, s.storage.slot[i]? = some (some c) → s.storage.slot[j]? = some (some d) →
    i ≠ j → s.handleOf c ≠ s.handleOf d
  grab : ∀ h, skynetHandleGrab s.handleOf s.storage h = a.live h
  names : ∃ l : List (HandleName ν), s.storage.nameCount = l.length ∧ Holds s.storage.name l ∧
    (l.Pairwise fun m n => m.name < n.name) ∧ ∀ name h, a.names name = some h ↔ ⟨name, h⟩ ∈ l
  findname : ∀ name, skynetHandleFindname s.storage name = .ok ((a.names name).getD 0)

/-- The tables are well formed and stand for the services. -/
structure Rep (s : State ν) (a : Services ν) (l : List (HandleName ν)) : Prop where
  slots : SlotsWf s.handleOf s.storage
  names : NamesWf s.storage l
  live : ∀ h c, a.live h = some c ↔ some c ∈ s.storage.slot ∧ s.handleOf c = h
  bound : ∀ name h, a.names name = some h ↔ ⟨name, h⟩ ∈ l

section Rep
variable {s : State ν} {a : Services ν} {l : List (HandleName ν)}

theorem rep_init (harbor : ℕ) (handleOf : ℕ → ℕ) :
    Rep ⟨skynetHandleInit harbor, handleOf⟩ (Services.empty : Services ν) [] := by
  have hslot : ∀ c, some c ∉ (skynetHandleInit harbor : HandleStorage ν).slot := fun c hc =>
    nomatch eq_of_mem_replicate hc
  refine ⟨⟨⟨2, by decide, rfl⟩, ?_, fun i c hc => absurd (mem_of_getElem? hc) (hslot c)⟩,
    ⟨holds_nil _, rfl, .nil, ⟨1, le_rfl, by decide, rfl⟩⟩, fun h c => ?_, fun name h => ?_⟩
  · rw [skynetHandleInit, handleRemoteShift, Nat.shiftLeft_eq]
    exact Nat.dvd_mul_left _ _
  · exact ⟨(fun h0 => nomatch h0), fun h0 => absurd h0.1 (hslot c)⟩
  · exact ⟨(fun h0 => nomatch h0), fun h0 => absurd h0 not_mem_nil⟩

theorem Rep.grab (h : Rep s a l) (handle : ℕ) :
    skynetHandleGrab s.handleOf s.storage handle = a.live handle := by
  cases hlive : a.live handle with
  | some c => exact (skynetHandleGrab_iff h.slots).mpr ((h.live handle c).mp hlive)
  | none =>
    rw [Option.eq_none_iff_forall_ne_some]
    intro c hc
    rw [(h.live handle c).mpr ((skynetHandleGrab_iff h.slots).mp hc)] at hlive
    exact nomatch hlive

theorem Rep.names_none (h : Rep s a l) {name : ν} (hnot : ∀ b ∈ l, b.name ≠ name) :
    a.names name = none := by
  rw [Option.eq_none_iff_forall_ne_some]
  exact fun handle hh => hnot _ ((h.bound name handle).mp hh) rfl

theorem Rep.findname (h : Rep s a l) (name : ν) :
    skynetHandleFindname s.storage name = .ok ((a.names name).getD 0) := by
  rcases skynetHandleFindname_eq h.names name with ⟨b, hb, rfl, hfind⟩ | ⟨hnot, hfind⟩
  · rw [hfind, (h.bound b.name b.handle).mpr hb]
    rfl
  · rw [hfind, h.names_none hnot]
    rfl

theorem Rep.exact (h : Rep s a l) : Exact s a := by
  refine ⟨fun handle c hc => ?_, fun i j c d hi hj hij heq => ?_, h.grab,
    ⟨l, h.names.count, h.names.holds, h.names.sorted, h.bound⟩, h.findname⟩
  · obtain ⟨hmem, rfl⟩ := (h.live handle c).mp hc
    obtain ⟨k, -, hlen⟩ := h.slots.size
    obtain ⟨i, hi⟩ := mem_iff_getElem?.mp hmem
    rw [hlen, and_mask, ← hlen, h.slots.stored i c hi]
    exact ⟨rfl, hi⟩
  · refine hij ?_
    rw [← h.slots.stored i c hi, ← h.slots.stored j d hj, heq]

theorem Rep.register (h : Rep s a l) {ctx : ℕ} (hc : Allowed s (.register ctx)) :
    ∃ t handle, skynetHandleRegister s.handleOf s.storage ctx = .ok (t, handle) ∧
      a.live handle = none ∧ Rep ⟨t, update s.handleOf ctx handle⟩
        { a with live := update a.live handle (some ctx) } l := by
  obtain ⟨hctx, hcount⟩ := hc
  obtain ⟨t, handle, hreg, hwf, hmem, hne, hname, hnc⟩ := skynetHandleRegister_ok h.slots hctx hcount
  have hnone : a.live handle = none := by
    rw [Option.eq_none_iff_forall_ne_some]
    intro c hlive
    obtain ⟨hcs, hch⟩ := (h.live handle c).mp hlive
    exact hne c hcs hch
  refine ⟨t, handle, hreg, hnone, hwf, ⟨?_, ?_, h.names.sorted, ?_⟩, fun handle' c => ?_, h.bound⟩
  · dsimp only
    rw [hname]
    exact h.names.holds
  · exact hnc.trans h.names.count
  · dsimp only
    rw [hname]
    exact h.names.cap
  · dsimp only
    rw [hmem]
    by_cases hcc : c = ctx
    · rw [hcc, update_self]
      by_cases hh : handle' = handle
      · rw [hh, update_self]
        exact ⟨fun _ => ⟨.inr rfl, rfl⟩, fun _ => rfl⟩
      · rw [update_of_ne hh]
        exact ⟨fun hlive => absurd ((h.live handle' ctx).mp hlive).1 hctx,
          fun h0 => absurd h0.2.symm hh⟩
    · rw [update_of_ne hcc, or_iff_left hcc]
      by_cases hh : handle' = handle
      · rw [hh, update_self]
        exact ⟨fun h0 => absurd (Option.some.inj h0).symm hcc, fun h0 => absurd h0.2 (hne c h0.1)⟩
      · rw [update_of_ne hh]
        exact h.live handle' c

theorem Rep.retire (h : Rep s a l) {handle ctx : ℕ} (hlive : a.live handle = some ctx) :
    ∃ t, skynetHandleRetire s.handleOf s.storage handle = .ok (t, true) ∧
      Rep ⟨t, s.handleOf⟩ ⟨update a.live handle none,
        fun n => if a.names n = some handle then none else a.names n⟩
        (l.filter fun n => !decide (n.handle = handle)) := by
  obtain ⟨t, hretire, hwf, hnames, hmem⟩ :=
    skynetHandleRetire_some h.slots h.names ((h.grab handle).trans hlive)
  refine ⟨t, hretire, hwf, hnames, fun handle' c => ?_, fun name handle' => ?_⟩
  · dsimp only
    rw [hmem]
    by_cases hh : handle' = handle
    · rw [hh, update_self]
      exact ⟨(fun h0 => nomatch h0), fun h0 => absurd h0.2 h0.1.2⟩
    · rw [update_of_ne hh, h.live handle' c]
      exact ⟨fun h0 => ⟨⟨h0.1, fun heq => hh (h0.2.symm.trans heq)⟩, h0.2⟩, fun h0 => ⟨h0.1.1, h0.2⟩⟩
  · dsimp only
    rw [mem_filter, ← h.bound]
    by_cases hn : a.names name = some handle
    · rw [if_pos hn, hn]
      refine ⟨(fun h0 => nomatch h0), fun h0 => ?_⟩
      simp [Option.some.inj h0.1] at h0
    · rw [if_neg hn]
      refine ⟨fun h0 => ⟨h0, ?_⟩, And.left⟩
      have hne : handle' ≠ handle := by
        rintro rfl
        exact hn h0
      simp [hne]

theorem Rep.bind (h : Rep s a l) {name : ν} {p : ℕ} (handle : ℕ) (hp : p ≤ l.length)
    (hlow : ∀ b ∈ l.take p, strcmp b.name name = .lt)
    (hhigh : ∀ b ∈ l.drop p, strcmp b.name name = .gt) (hroom : s.storage.nameCount < maxSlotSize) :
    ∃ t, insertNameBefore s.storage name handle p = .ok t ∧
      Rep ⟨t, s.handleOf⟩ { a with names := update a.names name (some handle) }
        (l.take p ++ ⟨name, handle⟩ :: l.drop p) := by
  obtain ⟨t, hinsert, hnames, hslot, hharbor⟩ := insertNameBefore_ok h.names handle hp
    (fun b hb => compare_lt_iff_lt.mp (hlow b hb)) (fun b hb => compare_gt_iff_gt.mp (hhigh b hb)) hroom
  have hnot := notMem_of_place hlow hhigh
  refine ⟨t, hinsert, ⟨?_, ?_, ?_⟩, hnames, fun handle' c => ?_, fun name' handle' => ?_⟩
  · dsimp only
    rw [hslot]
    exact h.slots.size
  · dsimp only
    rw [hharbor]
    exact h.slots.harbor
  · dsimp only
    rw [hslot]
    exact h.slots.stored
  · dsimp only
    rw [hslot]
    exact h.live handle' c
  · have hmem : (⟨name', handle'⟩ : HandleName ν) ∈ l.take p ++ ⟨name, handle⟩ :: l.drop p ↔
        (name' = name ∧ handle' = handle) ∨ (⟨name', handle'⟩ : HandleName ν) ∈ l := by
      rw [mem_append, mem_cons, or_left_comm, ← mem_append, take_append_drop,
        HandleName.mk.injEq]
    dsimp only
    rw [hmem]
    by_cases hn : name' = name
    · rw [hn, update_self, Option.some_inj]
      refine ⟨fun h0 => .inl ⟨rfl, h0.symm⟩, fun h0 => ?_⟩
      rcases h0 with ⟨-, heq⟩ | hl
      · exact heq.symm
      · exact absurd rfl (hnot _ hl)
    · rw [update_of_ne hn, h.bound, or_iff_right fun h0 => hn h0.1]

/-- **One call.** -/
theorem Rep.call (h : Rep s a l) {c : Call ν} (hc : Allowed s c) :
    (∃ s' answer l', call s c = .ok (s', answer) ∧ a.Right c answer ∧ Rep s' (a.after c answer) l') ∨
      (call s c = .error .nameCap ∧ maxSlotSize ≤ s.storage.nameCount) := by
  cases c with
  | register ctx =>
    obtain ⟨t, handle, hreg, hnone, hrep⟩ := h.register hc
    exact .inl ⟨_, .handle handle, l, by rw [SkynetHandle.call, hreg], hnone, hrep⟩
  | retire handle =>
    cases hlive : a.live handle with
    | none =>
      have hretire := skynetHandleRetire_none ((h.grab handle).trans hlive)
      refine .inl ⟨s, .done false, l, by rw [SkynetHandle.call, hretire], ?_, ?_⟩
      · rw [Services.Right, hlive]
        rfl
      · rw [Services.after, hlive]
        exact h
    | some ctx =>
      obtain ⟨t, hretire, hrep⟩ := h.retire hlive
      have hrep' : Rep ⟨t, s.handleOf⟩ (a.after (.retire handle) (.done true))
          (l.filter fun n => !decide (n.handle = handle)) := by
        rw [Services.after, hlive]
        exact hrep
      refine .inl ⟨⟨t, s.handleOf⟩, .done true, _, by rw [SkynetHandle.call, hretire], ?_, hrep'⟩
      rw [Services.Right, hlive]
      rfl
  | grab handle => exact .inl ⟨s, _, l, rfl, h.grab handle, h⟩
  | namehandle handle name =>
    obtain ⟨r, hsearch, hfound⟩ := search_names h.names name
    rw [SkynetHandle.call, skynetHandleNamehandle, hsearch]
    cases hfound with
    | @here b p hb hcmp =>
      have hname : a.names name = some b.handle := by
        rw [← compare_eq_iff_eq.mp hcmp]
        exact (h.bound b.name b.handle).mpr (mem_of_getElem? hb)
      refine .inl ⟨s, .done false, l, rfl, ?_, ?_⟩
      · rw [Services.Right, hname]
        rfl
      · rw [Services.after, hname]
        exact h
    | @place p hp hlow hhigh =>
      have hnone := h.names_none (notMem_of_place hlow hhigh)
      dsimp only
      by_cases hroom : s.storage.nameCount < maxSlotSize
      · obtain ⟨t, hinsert, hrep⟩ := h.bind handle hp hlow hhigh hroom
        have hrep' : Rep ⟨t, s.handleOf⟩ (a.after (.namehandle handle name) (.done true))
            (l.take p ++ ⟨name, handle⟩ :: l.drop p) := by
          rw [Services.after, hnone]
          exact hrep
        refine .inl ⟨⟨t, s.handleOf⟩, .done true, _, by rw [hinsert], ?_, hrep'⟩
        rw [Services.Right, hnone]
        rfl
      · rw [insertNameBefore_full h.names (Nat.not_lt.mp hroom)]
        exact .inr ⟨rfl, Nat.not_lt.mp hroom⟩
  | findname name =>
    exact .inl ⟨s, .handle ((a.names name).getD 0), l, by rw [SkynetHandle.call, h.findname], rfl, h⟩

end Rep

theorem rep_of_runs {harbor : ℕ} {s : State ν} {a : Services ν} (h : Runs harbor s a) :
    ∃ l, Rep s a l := by
  induction h with
  | init handleOf => exact ⟨[], rep_init harbor handleOf⟩
  | step hruns hc hcall ih =>
    obtain ⟨l, hrep⟩ := ih
    rcases hrep.call hc with ⟨s', answer, l', hcall', -, hrep'⟩ | ⟨hfail, -⟩
    · obtain ⟨rfl, rfl⟩ := Prod.mk.inj (Except.ok.inj (hcall'.symm.trans hcall))
      exact ⟨l', hrep'⟩
    · rw [hcall] at hfail
      exact nomatch hfail

/-- **The tables are exact in every run**, and the next call returns what it should; only a name for a
table of `MAX_SLOT_SIZE` names fails an assertion. -/
theorem handleTable_runs {harbor : ℕ} {s : State ν} {a : Services ν} (h : Runs harbor s a) :
    Exact s a ∧ ∀ c, Allowed s c →
      (∃ s' answer, call s c = .ok (s', answer) ∧ a.Right c answer) ∨
        (call s c = .error .nameCap ∧ maxSlotSize ≤ s.storage.nameCount) := by
  obtain ⟨l, hrep⟩ := rep_of_runs h
  refine ⟨hrep.exact, fun c hc => ?_⟩
  rcases hrep.call hc with ⟨s', answer, -, hcall, hright, -⟩ | hfail
  · exact .inl ⟨s', answer, hcall, hright⟩
  · exact .inr hfail

/-- Five services, so that the table grows, and a name of the second, which is retired. -/
theorem exists_runs : ∃ (s : State ℕ) (a : Services ℕ), Runs 1 s a ∧ a.live 0x1000005 = some 105 ∧
    a.live 0x1000002 = none ∧ a.names 7 = none ∧ a.names 5 = some 0x1000003 := by
  have h₀ : Runs 1 (⟨skynetHandleInit 1, fun _ => 0⟩ : State ℕ) Services.empty := .init _
  have h₁ := h₀.step (c := .register 101) ⟨by decide, by decide⟩ rfl
  have h₂ := h₁.step (c := .register 102) ⟨by decide, by decide⟩ rfl
  have h₃ := h₂.step (c := .register 103) ⟨by decide, by decide⟩ rfl
  have h₄ := h₃.step (c := .register 104) ⟨by decide, by decide⟩ rfl
  have h₅ := h₄.step (c := .register 105) ⟨by decide, by decide⟩ rfl
  have h₆ := h₅.step (c := .namehandle 0x1000002 7) trivial rfl
  have h₇ := h₆.step (c := .namehandle 0x1000003 5) trivial rfl
  have h₈ := h₇.step (c := .retire 0x1000002) trivial rfl
  exact ⟨_, _, h₈, rfl, rfl, rfl, rfl⟩

theorem handleTable_runs_five : ∃ (s : State ℕ) (a : Services ℕ), a.live 0x1000005 = some 105 ∧ Exact s a ∧
    ∀ c, Allowed s c → (∃ s' answer, call s c = .ok (s', answer) ∧ a.Right c answer) ∨
      (call s c = .error .nameCap ∧ maxSlotSize ≤ s.storage.nameCount) := by
  obtain ⟨s, a, hruns, hlive, -⟩ := exists_runs
  obtain ⟨hexact, hnext⟩ := handleTable_runs hruns
  exact ⟨s, a, hlive, hexact, hnext⟩

end Runs

end SourceLibs.SkynetHandle
