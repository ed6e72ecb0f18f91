import Mathlib.Data.Nat.Bitwise
import Mathlib.Data.List.Basic
import Mathlib.Tactic.MkIffOfInductiveProp
import Mathlib.Tactic.SplitIfs

/-!
# Skynet — the timer

`skynet_timer.c`.  Time is a counter of 32 bits.  A node that expires in the current block of 256 ticks
is in the near wheel, by its last 8 bits; otherwise the first block it shares with the current time,
of 2^14, 2^20, 2^26 or all ticks, says in which of four levels it is, by 6 bits of its expiry.  Where a
node is thus depends on its expiry and the current time only (`place`), and `timer_shift` moves the
one list for which that changes.

The functions run under the lock of the timer, as one step each; `dispatch_list` works on a list that
is already taken out.  Adding with a delay outside of `1 … 2^31 - 1` is not modelled.

* `place_shift`: what a tick changes.
* `timerShift_wheel`: the lists are again where `place` says, in the order of insertion.
* `timer_run`: every node fires once, with the `t`-th update after it was added.
-/

namespace SourceLibs.SkynetTimer
open List Nat Function

/-- `TIME_NEAR_SHIFT`, `TIME_NEAR` and so on. -/
def timeNearShift : ℕ := 8
def timeNear : ℕ := 1 <<< timeNearShift
def timeLevelShift : ℕ := 6
def timeLevel : ℕ := 1 <<< timeLevelShift
def timeNearMask : ℕ := timeNear - 1
def timeLevelMask : ℕ := timeLevel - 1

/-- `struct timer_node`, with the event behind it. -/
structure TimerNode (α : Type*) where
  arg : α
  expire : ℕ

/-- `struct timer`: the lists in their order, and the time. -/
structure Timer (α : Type*) where
  near : ℕ → List (TimerNode α)
  t : ℕ → ℕ → List (TimerNode α)
  time : ℕ

variable {α : Type*} {P : List (α × ℕ)}

/-- `link(&T->near[k], node)`. -/
def Timer.linkNear (T : Timer α) (k : ℕ) (node : TimerNode α) : Timer α :=
  { T with near := update T.near k (T.near k ++ [node]) }

/-- `link(&T->t[i][j], node)`. -/
def Timer.linkLevel (T : Timer α) (i j : ℕ) (node : TimerNode α) : Timer α :=
  { T with t := update T.t i (update (T.t i) j (T.t i j ++ [node])) }

/-- The loop of `add_node`: the level. -/
def levelLoop (time currentTime : ℕ) : ℕ → ℕ → ℕ → ℕ
  | 0, i, _           => i
  | fuel + 1, i, mask =>
    if time ||| (mask - 1) = currentTime ||| (mask - 1) then i
    else levelLoop time currentTime fuel (i + 1) (mask <<< timeLevelShift)

/-- `add_node`: into the near slots or those of a level. -/
def addNode (T : Timer α) (node : TimerNode α) : Timer α :=
  let time := node.expire
  let currentTime := T.time
  if time ||| timeNearMask = currentTime ||| timeNearMask then
    T.linkNear (time &&& timeNearMask) node
  else
    let i := levelLoop time currentTime 3 0 (timeNear <<< timeLevelShift)
    T.linkLevel i ((time >>> (timeNearShift + i * timeLevelShift)) &&& timeLevelMask) node

def timerAdd (T : Timer α) (arg : α) (time : ℕ) : Timer α :=
  addNode T ⟨arg, (time + T.time) % 2 ^ 32⟩

def moveList (T : Timer α) (level idx : ℕ) : Timer α :=
  let current := T.t level idx
  let T := { T with t := update T.t level (update (T.t level) idx []) }
  current.foldl addNode T

/-- The loop of `timer_shift`; a time other than 0 is found in one of four rounds. -/
def shiftLoop (ct : ℕ) : ℕ → ℕ → ℕ → ℕ → Timer α → Timer α
  | 0, _, _, _, T              => T
  | fuel + 1, mask, time, i, T =>
    if ct &&& (mask - 1) = 0 then
      let idx := time &&& timeLevelMask
      if idx ≠ 0 then moveList T i idx
      else shiftLoop ct fuel (mask <<< timeLevelShift) (time >>> timeLevelShift) (i + 1) T
    else T

/-- `timer_shift`: one tick, and the lists that it brings nearer. -/
def timerShift (T : Timer α) : Timer α :=
  let ct := (T.time + 1) % 2 ^ 32
  let T := { T with time := ct }
  if ct = 0 then moveList T 3 0
  else shiftLoop ct 4 timeNear (ct >>> timeNearShift) 0 T

/-- `timer_execute`, with the nodes dispatched; the list it tests is empty once it is taken. -/
def timerExecute (T : Timer α) : Timer α × List (TimerNode α) :=
  let idx := T.time &&& timeNearMask
  ({ T with near := update T.near idx [] }, T.near idx)

/-- `timer_update`, with the nodes dispatched. -/
def timerUpdate (T : Timer α) : Timer α × List (TimerNode α) :=
  let (T, first) := timerExecute T
  let T := timerShift T
  let (T, second) := timerExecute T
  (T, first ++ second)

/-- `timer_create_timer`, with the time at which it starts. -/
def timerCreateTimer (α : Type*) (time : ℕ) : Timer α := ⟨fun _ => [], fun _ _ => [], time⟩

/-! ### Where a node is -/

/-- A list of the timer. -/
inductive Place where
  | near (k : ℕ)
  | level (i j : ℕ)
  deriving DecidableEq

/-- The list a node with this expiry is in. -/
def place (e c : ℕ) : Place :=
  if e / 2 ^ 8 = c / 2 ^ 8 then .near (e % 2 ^ 8)
  else if e / 2 ^ 14 = c / 2 ^ 14 then .level 0 (e / 2 ^ 8 % 2 ^ 6)
  else if e / 2 ^ 20 = c / 2 ^ 20 then .level 1 (e / 2 ^ 14 % 2 ^ 6)
  else if e / 2 ^ 26 = c / 2 ^ 26 then .level 2 (e / 2 ^ 20 % 2 ^ 6)
  else .level 3 (e / 2 ^ 26 % 2 ^ 6)

/-- The list at a place. -/
def Timer.slot (T : Timer α) : Place → List (TimerNode α)
  | .near k    => T.near k
  | .level i j => T.t i j

/-- A node put at a place. -/
def Timer.put (T : Timer α) (p : Place) (node : TimerNode α) : Timer α :=
  match p with
  | .near k    => T.linkNear k node
  | .level i j => T.linkLevel i j node

theorem or_mask_eq_iff (a b k : ℕ) :
    a ||| (2 ^ k - 1) = b ||| (2 ^ k - 1) ↔ a / 2 ^ k = b / 2 ^ k := by
  have hdiv : ∀ c : ℕ, (c ||| (2 ^ k - 1)) / 2 ^ k = c / 2 ^ k := by
    intro c
    rw [← Nat.shiftRight_eq_div_pow, shiftRight_or_distrib, Nat.shiftRight_eq_div_pow,
      Nat.shiftRight_eq_div_pow, div_eq_of_lt (sub_lt (Nat.two_pow_pos k) Nat.one_pos),
      Nat.or_zero]
  constructor
  · intro h
    rw [← hdiv a, ← hdiv b, h]
  · intro h
    refine eq_of_testBit_eq fun j => ?_
    rw [testBit_or, testBit_or, testBit_two_pow_sub_one]
    by_cases hj : j < k
    · simp [hj]
    · have hbit : ∀ c : ℕ, c.testBit j = (c / 2 ^ k).testBit (j - k) := by
        intro c
        rw [testBit_div_two_pow, Nat.sub_add_cancel (by omega)]
      rw [hbit a, hbit b, h]

/-- **`add_node`** puts a node at its place. -/
theorem addNode_eq (T : Timer α) (node : TimerNode α) :
    addNode T node = T.put (place node.expire T.time) node := by
  have hnear : timeNearMask = 2 ^ 8 - 1 := rfl
  have hlevel : timeLevelMask = 2 ^ 6 - 1 := rfl
  have h₁ : timeNear <<< timeLevelShift = 2 ^ 14 := rfl
  have h₂ : 2 ^ 14 <<< timeLevelShift = 2 ^ 20 := rfl
  have h₃ : 2 ^ 20 <<< timeLevelShift = 2 ^ 26 := rfl
  rw [addNode, place, hnear, hlevel, h₁]
  simp only [levelLoop, or_mask_eq_iff, h₂, h₃, and_two_pow_sub_one_eq_mod,
    Nat.shiftRight_eq_div_pow]
  split
  · rfl
  · split
    · rfl
    · split
      · rfl
      · split <;> rfl

theorem slot_put (T : Timer α) (p q : Place) (node : TimerNode α) :
    (T.put p node).slot q = if q = p then T.slot q ++ [node] else T.slot q := by
  cases p with
  | near k =>
    cases q with
    | near k' =>
      by_cases h : k' = k
      · rw [h, if_pos rfl]
        exact update_self ..
      · rw [if_neg (by simpa using h)]
        exact update_of_ne h ..
    | level i j => exact (if_neg (by simp)).symm
  | level i j =>
    cases q with
    | near k' => exact (if_neg (by simp)).symm
    | level i' j' =>
      show update T.t i (update (T.t i) j (T.t i j ++ [node])) i' j' = _
      by_cases hi : i' = i
      · subst hi
        rw [update_self]
        by_cases hj : j' = j
        · rw [hj, update_self, if_pos rfl]
          rfl
        · rw [update_of_ne hj, if_neg (by simpa using hj)]
          rfl
      · rw [update_of_ne hi, if_neg (by simp [hi])]
        rfl

theorem time_put (T : Timer α) (p : Place) (node : TimerNode α) : (T.put p node).time = T.time := by
  cases p <;> rfl

/-! ### A tick -/

/-- The list `timer_shift` moves when the time becomes `ct`. -/
def moved (ct : ℕ) : Option (ℕ × ℕ) :=
  if ct = 0 then some (3, 0)
  else if ct % 2 ^ 8 ≠ 0 then none
  else if ct / 2 ^ 8 % 2 ^ 6 ≠ 0 then some (0, ct / 2 ^ 8 % 2 ^ 6)
  else if ct / 2 ^ 14 % 2 ^ 6 ≠ 0 then some (1, ct / 2 ^ 14 % 2 ^ 6)
  else if ct / 2 ^ 20 % 2 ^ 6 ≠ 0 then some (2, ct / 2 ^ 20 % 2 ^ 6)
  else some (3, ct / 2 ^ 26 % 2 ^ 6)

theorem mod_eq_zero_of_digit {x i : ℕ} (h : x % 2 ^ i = 0) (hdigit : x / 2 ^ i % 2 ^ 6 = 0) :
    x % 2 ^ (i + 6) = 0 := by
  rw [Nat.pow_add, mod_mul, h, hdigit, Nat.mul_zero]

theorem timerShift_eq (T : Timer α) :
    timerShift T = (moved ((T.time + 1) % 2 ^ 32)).elim { T with time := (T.time + 1) % 2 ^ 32 }
      fun m => moveList { T with time := (T.time + 1) % 2 ^ 32 } m.1 m.2 := by
  have hlevel : timeLevelMask = 2 ^ 6 - 1 := rfl
  have h₀ : timeNear = 2 ^ 8 := rfl
  have h₁ : 2 ^ 8 <<< 6 = 2 ^ 14 := rfl
  have h₂ : 2 ^ 14 <<< 6 = 2 ^ 20 := rfl
  have h₃ : 2 ^ 20 <<< 6 = 2 ^ 26 := rfl
  have hshift : timeLevelShift = 6 := rfl
  have hnear : timeNearShift = 8 := rfl
  rw [timerShift, moved]
  have hlt : (T.time + 1) % 2 ^ 32 < 2 ^ 32 := mod_lt _ (Nat.two_pow_pos 32)
  generalize (T.time + 1) % 2 ^ 32 = ct at *
  by_cases hct : ct = 0
  · rw [if_pos hct, if_pos hct]
    rfl
  rw [if_neg hct, if_neg hct]
  simp only [shiftLoop, h₀, h₁, h₂, h₃, hlevel, hshift, hnear, and_two_pow_sub_one_eq_mod,
    Nat.shiftRight_eq_div_pow, Nat.div_div_eq_div_mul, ← Nat.pow_add]
  by_cases hm : ct % 2 ^ 8 = 0
  · rw [if_pos hm, if_neg (not_not.mpr hm)]
    by_cases hm₀ : ct / 2 ^ 8 % 2 ^ 6 = 0
    · have z14 := mod_eq_zero_of_digit hm hm₀
      rw [if_neg (not_not.mpr hm₀), if_neg (not_not.mpr hm₀), if_pos z14]
      by_cases hm₁ : ct / 2 ^ 14 % 2 ^ 6 = 0
      · have z20 := mod_eq_zero_of_digit z14 hm₁
        rw [if_neg (not_not.mpr hm₁), if_neg (not_not.mpr hm₁), if_pos z20]
        by_cases hm₂ : ct / 2 ^ 20 % 2 ^ 6 = 0
        · have z26 := mod_eq_zero_of_digit z20 hm₂
          rw [if_neg (not_not.mpr hm₂), if_neg (not_not.mpr hm₂), if_pos z26, if_pos (by omega)]
          rfl
        · rw [if_pos hm₂, if_pos hm₂]
          rfl
      · rw [if_pos hm₁, if_pos hm₁]
        rfl
    · rw [if_pos hm₀, if_pos hm₀]
      rfl
  · rw [if_neg hm, if_pos hm]
    rfl

/-- What a tick that moves the list `m` does to a node: if it is not in that list it stays where it is;
otherwise it belongs to a lower level, and there is no node in the lower levels. -/
@[mk_iff]
structure Shifted (e c ct : ℕ) (m : ℕ × ℕ) : Prop where
  not_near : ∀ k, place e c ≠ .near k
  le : ∀ i j, place e c = .level i j → m.1 ≤ i
  stay : place e c ≠ .level m.1 m.2 → place e ct = place e c
  down : place e c = .level m.1 m.2 → ∀ i j, place e ct = .level i j → i < m.1

theorem div_eq_of_le {a b i j : ℕ} (hij : i ≤ j) (h : a / 2 ^ i = b / 2 ^ i) :
    a / 2 ^ j = b / 2 ^ j := by
  rw [← add_sub_of_le hij, Nat.pow_add, ← Nat.div_div_eq_div_mul, h, Nat.div_div_eq_div_mul]

theorem place_eq_level_iff {e c i j : ℕ} (he : e < 2 ^ 32) (hc : c < 2 ^ 32) : place e c = .level i j ↔
    i ≤ 3 ∧ e / 2 ^ (8 + 6 * i) ≠ c / 2 ^ (8 + 6 * i) ∧
      e / 2 ^ (8 + 6 * (i + 1)) = c / 2 ^ (8 + 6 * (i + 1)) ∧ e / 2 ^ (8 + 6 * i) % 2 ^ 6 = j := by
  constructor
  · intro h
    rw [place] at h
    split_ifs at h with h8 h14 h20 h26
    all_goals obtain ⟨rfl, rfl⟩ := Place.level.inj h
    · exact ⟨by decide, h8, h14, rfl⟩
    · exact ⟨by decide, h14, h20, rfl⟩
    · exact ⟨by decide, h20, h26, rfl⟩
    · exact ⟨by decide, h26, (div_eq_of_lt he).trans (div_eq_of_lt hc).symm, rfl⟩
  · rintro ⟨hi, hne, heq, rfl⟩
    have hbelow {k : ℕ} (hk : k ≤ 8 + 6 * i) : e / 2 ^ k ≠ c / 2 ^ k := mt (div_eq_of_le hk) hne
    rw [place]
    obtain rfl | rfl | rfl | rfl : i = 0 ∨ i = 1 ∨ i = 2 ∨ i = 3 := by omega
    · rw [if_neg hne, if_pos heq]
    · rw [if_neg (hbelow (by decide)), if_neg hne, if_pos heq]
    · rw [if_neg (hbelow (by decide)), if_neg (hbelow (by decide)), if_neg hne, if_pos heq]
    · rw [if_neg (hbelow (by decide)), if_neg (hbelow (by decide)), if_neg (hbelow (by decide)), if_neg hne]

/-- The list of the digit that changes when all below it become zero. -/
theorem shifted_of {e c ct m : ℕ} (he : e < 2 ^ 32) (hc : c < 2 ^ 32) (hct : ct < 2 ^ 32)
    (hne : e / 2 ^ (8 + 6 * m) ≠ c / 2 ^ (8 + 6 * m))
    (hsame : ct / 2 ^ (8 + 6 * (m + 1)) = c / 2 ^ (8 + 6 * (m + 1))) :
    Shifted e c ct (m, ct / 2 ^ (8 + 6 * m) % 2 ^ 6) := by
  have hle : ∀ i j, place e c = .level i j → m ≤ i := by
    intro i j h
    obtain ⟨-, -, heq, -⟩ := (place_eq_level_iff he hc).mp h
    by_contra hlt
    exact hne (div_eq_of_le (by omega) heq)
  have hnear : ∀ k, place e c ≠ .near k := by
    intro k
    rw [place, if_neg (mt (div_eq_of_le (Nat.le_add_right ..)) hne)]
    split_ifs <;> exact Place.noConfusion
  refine ⟨hnear, hle, fun hmoved => ?_, fun h i j hnew => ?_⟩
  · rcases hold : place e c with k | ⟨i, j⟩
    · exact absurd hold (hnear k)
    obtain ⟨hi, hne', heq, hdigit⟩ := (place_eq_level_iff he hc).mp hold
    have hmi := hle i j hold
    refine (place_eq_level_iff he hct).mpr ⟨hi, ?_, ?_, hdigit⟩
    · rcases hmi.eq_or_lt with rfl | hlt
      · intro hsame'
        rw [hsame'] at hdigit
        exact hmoved (by rw [hold, hdigit])
      · rwa [div_eq_of_le (by omega) hsame]
    · rw [heq, div_eq_of_le (by omega) hsame]
  · obtain ⟨-, -, heq, hdigit⟩ := (place_eq_level_iff he hc).mp h
    obtain ⟨-, hne', -, -⟩ := (place_eq_level_iff he hct).mp hnew
    rw [← hsame, Nat.mul_succ, ← Nat.add_assoc, Nat.pow_add, ← Nat.div_div_eq_div_mul,
      ← Nat.div_div_eq_div_mul] at heq
    have hdiv : e / 2 ^ (8 + 6 * m) = ct / 2 ^ (8 + 6 * m) := by
      rw [← div_add_mod (e / 2 ^ (8 + 6 * m)) (2 ^ 6), heq, hdigit, div_add_mod]
    by_contra hlt
    exact hne' (div_eq_of_le (by omega) hdiv)

/-- An expiry that is to come differs from the time in the digits above those that become zero. -/
theorem div_ne_of_mod {c r e k : ℕ} (hk : k ≤ 31) (hr : 1 ≤ r) (hr' : r < 2 ^ 31)
    (he : e = c + r ∨ e + 2 ^ 32 = c + r) (hmod : (c + 1) % 2 ^ k = 0) : e / 2 ^ k ≠ c / 2 ^ k := by
  have hpow : 2 ^ k ≤ 2 ^ 31 := Nat.pow_le_pow_right (by decide) hk
  intro heq
  rcases he with rfl | he
  · have hsucc := succ_div_of_dvd (dvd_of_mod_eq_zero hmod)
    have hle : (c + 1) / 2 ^ k ≤ (c + r) / 2 ^ k := Nat.div_le_div_right (by omega)
    omega
  · have hc := lt_mul_div_succ c (Nat.two_pow_pos k)
    have he' := mul_div_le e (2 ^ k)
    rw [heq] at he'
    rw [Nat.mul_add] at hc
    omega

theorem not_dvd_of_digit {x i : ℕ} (hdigit : x / 2 ^ i % 2 ^ 6 ≠ 0) : ¬ 2 ^ (i + 6) ∣ x := by
  rintro ⟨y, rfl⟩
  rw [Nat.pow_add, Nat.mul_assoc, Nat.mul_div_cancel_left _ (Nat.two_pow_pos i), mul_mod_right] at hdigit
  exact hdigit rfl

/-- **A tick.** -/
theorem place_shift {c r e ct : ℕ} (hc : c < 2 ^ 32) (hr : 1 ≤ r) (hr' : r < 2 ^ 31)
    (he : e = (c + r) % 2 ^ 32) (hct : ct = (c + 1) % 2 ^ 32) :
    (moved ct = none ∧ place e ct = place e c) ∨ ∃ m, moved ct = some m ∧ Shifted e c ct m := by
  have hlt : e < 2 ^ 32 := he ▸ mod_lt _ (Nat.two_pow_pos 32)
  have hlt' : ct < 2 ^ 32 := hct ▸ mod_lt _ (Nat.two_pow_pos 32)
  replace he : e = c + r ∨ e + 2 ^ 32 = c + r := by omega
  replace hct : ct = 0 ∧ c = 2 ^ 32 - 1 ∨ ct = c + 1 ∧ ct ≠ 0 := by omega
  have hne {k : ℕ} (hk : k ≤ 31) := div_ne_of_mod hk hr hr' he
  rcases hct with ⟨rfl, rfl⟩ | ⟨rfl, hpos⟩
  · -- The counter wraps around.
    exact Or.inr ⟨_, rfl, shifted_of (m := 3) hlt hc hlt' (hne (by decide) (by decide)) (by decide)⟩
  rw [moved, if_neg hpos]
  by_cases h8 : (c + 1) % 2 ^ 8 = 0
  swap
  · have hsame : (c + 1) / 2 ^ 8 = c / 2 ^ 8 := succ_div_of_not_dvd fun h => h8 (mod_eq_zero_of_dvd h)
    rw [if_pos h8, place, place, hsame, div_eq_of_le (by decide : 8 ≤ 14) hsame,
      div_eq_of_le (by decide : 8 ≤ 20) hsame, div_eq_of_le (by decide : 8 ≤ 26) hsame]
    exact Or.inl ⟨rfl, rfl⟩
  refine Or.inr ?_
  rw [if_neg (not_not.mpr h8)]
  by_cases h14 : (c + 1) / 2 ^ 8 % 2 ^ 6 = 0
  swap
  · rw [if_pos h14]
    exact ⟨_, rfl, shifted_of (m := 0) hlt hc hlt' (hne (by decide) h8)
      (succ_div_of_not_dvd (not_dvd_of_digit h14))⟩
  have z14 := mod_eq_zero_of_digit h8 h14
  rw [if_neg (not_not.mpr h14)]
  by_cases h20 : (c + 1) / 2 ^ 14 % 2 ^ 6 = 0
  swap
  · rw [if_pos h20]
    exact ⟨_, rfl, shifted_of (m := 1) hlt hc hlt' (hne (by decide) z14)
      (succ_div_of_not_dvd (not_dvd_of_digit h20))⟩
  have z20 := mod_eq_zero_of_digit z14 h20
  rw [if_neg (not_not.mpr h20)]
  by_cases h26 : (c + 1) / 2 ^ 20 % 2 ^ 6 = 0
  swap
  · rw [if_pos h26]
    exact ⟨_, rfl, shifted_of (m := 2) hlt hc hlt' (hne (by decide) z20)
      (succ_div_of_not_dvd (not_dvd_of_digit h26))⟩
  have z26 := mod_eq_zero_of_digit z20 h26
  rw [if_neg (not_not.mpr h26)]
  exact ⟨_, rfl, shifted_of (m := 3) hlt hc hlt' (hne (by decide) z26)
    ((div_eq_of_lt hlt').trans (div_eq_of_lt hc).symm)⟩

/-! ### The lists -/

/-- The nodes are where they belong, in the order of `Q`. -/
def Wheel (T : Timer α) (Q : List (TimerNode α)) : Prop :=
  ∀ p, T.slot p = Q.filter fun n => decide (place n.expire T.time = p)

theorem wheel_addNode {T : Timer α} {Q : List (TimerNode α)} (h : Wheel T Q) (node : TimerNode α) :
    Wheel (addNode T node) (Q ++ [node]) ∧ (addNode T node).time = T.time := by
  rw [addNode_eq]
  refine ⟨fun p => ?_, time_put ..⟩
  rw [slot_put, time_put, filter_append, h p]
  by_cases hp : p = place node.expire T.time
  · rw [if_pos hp, filter_cons_of_pos (by simp [hp]), filter_nil]
  · rw [if_neg hp, filter_cons_of_neg (by simpa using Ne.symm hp), filter_nil,
      append_nil]

theorem slot_foldl_addNode (L : List (TimerNode α)) :
    ∀ T : Timer α, (L.foldl addNode T).time = T.time ∧ ∀ p, (L.foldl addNode T).slot p =
      T.slot p ++ L.filter fun n => decide (place n.expire T.time = p) := by
  induction L with
  | nil => exact fun T => ⟨rfl, fun p => (append_nil _).symm⟩
  | cons node L ih =>
    intro T
    obtain ⟨htime, hslot⟩ := ih (addNode T node)
    have htime' : (addNode T node).time = T.time := by rw [addNode_eq, time_put]
    refine ⟨htime.trans htime', fun p => ?_⟩
    rw [foldl_cons, hslot, htime', addNode_eq, slot_put]
    by_cases hp : p = place node.expire T.time
    · rw [if_pos hp, filter_cons_of_pos (by simp [hp]), List.append_assoc, singleton_append]
    · rw [if_neg hp, filter_cons_of_neg (by simpa using Ne.symm hp)]

theorem slot_moveList (T : Timer α) (i j : ℕ) :
    (moveList T i j).time = T.time ∧ ∀ p, (moveList T i j).slot p =
      (if p = .level i j then [] else T.slot p) ++
        (T.slot (.level i j)).filter fun n => decide (place n.expire T.time = p) := by
  obtain ⟨htime, hslot⟩ := slot_foldl_addNode (T.t i j)
    { T with t := update T.t i (update (T.t i) j []) }
  refine ⟨htime, fun p => (hslot p).trans ?_⟩
  congr 1
  cases p with
  | near k => exact (if_neg (by simp)).symm
  | level i' j' =>
    show update T.t i (update (T.t i) j []) i' j' = _
    by_cases hi : i' = i
    · subst hi
      rw [update_self]
      by_cases hj : j' = j
      · rw [hj, update_self, if_pos rfl]
      · rw [update_of_ne hj, if_neg (by simpa using hj)]
        rfl
    · rw [update_of_ne hi, if_neg (by simp [hi])]
      rfl

/-- The node of an event that is due in `x.2` ticks. -/
def nodeOf (c : ℕ) (x : α × ℕ) : TimerNode α := ⟨x.1, (c + x.2) % 2 ^ 32⟩

/-- **`timer_shift`** moves what is in the wrong list, and nothing else. -/
theorem timerShift_wheel {T : Timer α} (hT : T.time < 2 ^ 32)
    (hP : ∀ x ∈ P, 1 ≤ x.2 ∧ x.2 < 2 ^ 31) (h : Wheel T (P.map (nodeOf T.time))) :
    Wheel (timerShift T) (P.map (nodeOf T.time)) ∧
      (timerShift T).time = (T.time + 1) % 2 ^ 32 := by
  have hshift : ∀ n ∈ P.map (nodeOf T.time), ∃ r, 1 ≤ r ∧ r < 2 ^ 31 ∧
      n.expire = (T.time + r) % 2 ^ 32 := by
    intro n hn
    obtain ⟨x, hx, rfl⟩ := List.mem_map.mp hn
    exact ⟨x.2, (hP x hx).1, (hP x hx).2, rfl⟩
  rw [timerShift_eq]
  generalize P.map (nodeOf T.time) = Q at *
  cases hm : moved ((T.time + 1) % 2 ^ 32) with
  | none =>
    refine ⟨fun p => (h p).trans (filter_congr fun n hn => ?_), rfl⟩
    obtain ⟨r, hr, hr', he⟩ := hshift n hn
    rcases place_shift hT hr hr' he rfl with ⟨-, hplace⟩ | ⟨m, hm', -⟩
    · rw [Option.elim_none, hplace]
    · rw [hm] at hm'
      cases hm'
  | some m =>
    obtain ⟨htime, hslot⟩ := slot_moveList { T with time := (T.time + 1) % 2 ^ 32 } m.1 m.2
    have hplace : ∀ n ∈ Q, Shifted n.expire T.time ((T.time + 1) % 2 ^ 32) m := by
      intro n hn
      obtain ⟨r, hr, hr', he⟩ := hshift n hn
      rcases place_shift hT hr hr' he rfl with ⟨hm', -⟩ | ⟨m', hm', hshifted⟩
      · rw [hm] at hm'
        cases hm'
      · rw [hm, Option.some_inj] at hm'
        exact hm' ▸ hshifted
    refine ⟨fun p => ?_, htime⟩
    rw [Option.elim_some, hslot p, htime]
    have hold : ∀ q, Timer.slot { T with time := (T.time + 1) % 2 ^ 32 } q =
        Q.filter fun n => decide (place n.expire T.time = q) := by
      intro q
      rw [← h q]
      cases q <;> rfl
    rw [hold, hold, List.filter_filter]
    dsimp only
    -- Either the list gets only moved nodes, or it gets none.
    by_cases hempty : ∃ n ∈ Q, place n.expire T.time = .level m.1 m.2 ∧
        place n.expire ((T.time + 1) % 2 ^ 32) = p
    · obtain ⟨n₀, hn₀, hn₀m, hn₀p⟩ := hempty
      have hfirst : (if p = Place.level m.1 m.2 then [] else
          Q.filter fun n => decide (place n.expire T.time = p)) = [] := by
        split
        · rfl
        · rw [filter_eq_nil_iff]
          intro n hn hnp
          have hnp' : place n.expire T.time = p := by simpa using hnp
          obtain ⟨hnear, hle, -, -⟩ := hplace n hn
          cases p with
          | near k => exact hnear k hnp'
          | level i j =>
            have hlt := (hplace n₀ hn₀).down hn₀m i j hn₀p
            have hge := hle i j hnp'
            omega
      rw [hfirst, nil_append]
      refine filter_congr fun n hn => ?_
      rw [Bool.and_eq_decide, decide_eq_decide, decide_eq_true_iff, decide_eq_true_iff,
        and_iff_left_iff_imp]
      intro hnp
      by_contra hne
      obtain ⟨hnear, hle, hstay, -⟩ := hplace n hn
      rw [hstay hne] at hnp
      cases p with
      | near k => exact hnear k hnp
      | level i j =>
        have hlt := (hplace n₀ hn₀).down hn₀m i j hn₀p
        have hge := hle i j hnp
        omega
    · have hsecond : (Q.filter fun n => decide (place n.expire ((T.time + 1) % 2 ^ 32) = p) &&
          decide (place n.expire T.time = Place.level m.1 m.2)) = [] := by
        rw [filter_eq_nil_iff]
        intro n hn hnp
        rw [Bool.and_eq_true, decide_eq_true_iff, decide_eq_true_iff] at hnp
        exact hempty ⟨n, hn, hnp.2, hnp.1⟩
      rw [hsecond, append_nil]
      split
      · rename_i hp
        rw [eq_comm, filter_eq_nil_iff]
        intro n hn hnp
        have hnp' : place n.expire ((T.time + 1) % 2 ^ 32) = p := by simpa using hnp
        by_cases hnm : place n.expire T.time = .level m.1 m.2
        · exact hempty ⟨n, hn, hnm, hnp'⟩
        · rw [(hplace n hn).stay hnm, hp] at hnp'
          exact hnm hnp'
      · rename_i hp
        refine filter_congr fun n hn => ?_
        rw [decide_eq_decide]
        constructor
        · intro hnp
          rw [(hplace n hn).stay (hnp ▸ hp), hnp]
        · intro hnp
          by_cases hnm : place n.expire T.time = .level m.1 m.2
          · exact absurd ⟨n, hn, hnm, hnp⟩ hempty
          · rw [(hplace n hn).stay hnm] at hnp
            exact hnp

/-- Only a node that expires now is in the list of the current tick. -/
theorem place_eq_near_iff {e c : ℕ} : place e c = .near (c % 2 ^ 8) ↔ e = c := by
  rw [place]
  constructor
  · intro h
    by_cases h8 : e / 2 ^ 8 = c / 2 ^ 8
    · rw [if_pos h8, Place.near.injEq] at h
      omega
    · rw [if_neg h8] at h
      split_ifs at h
  · rintro rfl
    rw [if_pos rfl]

/-- **`timer_execute`** takes the nodes that expire now. -/
theorem timerExecute_wheel {T : Timer α} {Q : List (TimerNode α)} (h : Wheel T Q) :
    (timerExecute T).2 = Q.filter (fun n => decide (n.expire = T.time)) ∧
      Wheel (timerExecute T).1 (Q.filter fun n => decide (n.expire ≠ T.time)) := by
  have hmask : T.time &&& timeNearMask = T.time % 2 ^ 8 := and_two_pow_sub_one_eq_mod _ 8
  rw [timerExecute, hmask]
  refine ⟨?_, fun p => ?_⟩
  · have hnear := h (.near (T.time % 2 ^ 8))
    simp only [place_eq_near_iff] at hnear
    exact hnear
  · rw [List.filter_filter]
    by_cases hp : p = .near (T.time % 2 ^ 8)
    · have hempty : Timer.slot { T with near := update T.near (T.time % 2 ^ 8) [] } p = [] := by
        rw [hp]
        exact update_self ..
      rw [hempty, eq_comm, filter_eq_nil_iff]
      intro n _ hn
      rw [Bool.and_eq_true, decide_eq_true_iff, decide_eq_true_iff, hp, place_eq_near_iff] at hn
      exact hn.2 hn.1
    · have hsame : Timer.slot { T with near := update T.near (T.time % 2 ^ 8) [] } p =
          T.slot p := by
        cases p with
        | near k => exact update_of_ne (fun hk => hp (by rw [hk])) ..
        | level i j => rfl
      rw [hsame, h p]
      refine filter_congr fun n _ => ?_
      rw [eq_comm, Bool.and_eq_left_iff_imp, decide_eq_true_iff, decide_eq_true_iff]
      rintro hn he
      rw [he, place_eq_near_iff.mpr rfl] at hn
      exact hp hn.symm

/-- The events that fire in the next update, and those that wait. -/
def due (P : List (α × ℕ)) (m : ℕ) : List α := (P.filter (·.2 = m)).map Prod.fst

/-- What is left of timers after a tick. -/
def tick (P : List (α × ℕ)) : List (α × ℕ) := (P.filter (·.2 ≠ 1)).map fun x => (x.1, x.2 - 1)

/-- The timer holds the events of `P`. -/
structure Waits (T : Timer α) (P : List (α × ℕ)) : Prop where
  time_lt : T.time < 2 ^ 32
  delay : ∀ x ∈ P, 1 ≤ x.2 ∧ x.2 < 2 ^ 31
  wheel : Wheel T (P.map (nodeOf T.time))

theorem Waits.add {T : Timer α} (h : Waits T P) (arg : α) {t : ℕ} (ht : 1 ≤ t) (ht' : t < 2 ^ 31) :
    Waits (timerAdd T arg t) (P ++ [(arg, t)]) ∧ (timerAdd T arg t).time = T.time := by
  obtain ⟨hwheel, htime⟩ := wheel_addNode h.wheel ⟨arg, (t + T.time) % 2 ^ 32⟩
  refine ⟨⟨?_, fun x hx => ?_, ?_⟩, htime⟩
  · rw [timerAdd, htime]
    exact h.time_lt
  · rcases mem_append.mp hx with hx | hx
    · exact h.delay x hx
    · rw [mem_singleton.mp hx]
      exact ⟨ht, ht'⟩
  · rw [timerAdd, htime, map_append, map_singleton, nodeOf, Nat.add_comm T.time]
    exact hwheel

/-- **`timer_update`** dispatches the events that are due, in the order in which they were added. -/
theorem Waits.update {T : Timer α} (h : Waits T P) :
    (timerUpdate T).2.map TimerNode.arg = due P 1 ∧ Waits (timerUpdate T).1 (tick P) ∧
      (timerUpdate T).1.time = (T.time + 1) % 2 ^ 32 := by
  have hT := h.time_lt
  -- Nothing expires at the current time.
  obtain ⟨hfirst, hwheel₁⟩ := timerExecute_wheel h.wheel
  have hlate : ∀ n ∈ P.map (nodeOf T.time), n.expire ≠ T.time := by
    intro n hn
    obtain ⟨x, hx, rfl⟩ := List.mem_map.mp hn
    obtain ⟨hx₁, hx₂⟩ := h.delay x hx
    show (T.time + x.2) % 2 ^ 32 ≠ T.time
    omega
  rw [filter_eq_nil_iff.mpr fun n hn => by simpa using hlate n hn] at hfirst
  rw [filter_eq_self.mpr fun n hn => by simpa using hlate n hn] at hwheel₁
  have htime₁ : (timerExecute T).1.time = T.time := rfl
  rw [← htime₁] at hwheel₁ hT
  obtain ⟨hwheel₂, htime₂⟩ := timerShift_wheel hT h.delay hwheel₁
  rw [htime₁] at hwheel₂ htime₂
  obtain ⟨hsecond, hwheel₃⟩ := timerExecute_wheel hwheel₂
  have htime : (timerUpdate T).1.time = (T.time + 1) % 2 ^ 32 := htime₂
  have hdue : ∀ x ∈ P, ((T.time + x.2) % 2 ^ 32 = (T.time + 1) % 2 ^ 32 ↔ x.2 = 1) := by
    intro x hx
    obtain ⟨hx₁, hx₂⟩ := h.delay x hx
    omega
  refine ⟨?_, ⟨?_, fun x hx => ?_, ?_⟩, htime⟩
  · show ((timerExecute T).2 ++ (timerExecute (timerShift (timerExecute T).1)).2).map _ = _
    rw [hfirst, nil_append, hsecond, htime₂, List.filter_map, List.map_map, due]
    congr 1
    refine filter_congr fun x hx => ?_
    exact decide_eq_decide.mpr (hdue x hx)
  · rw [htime]
    exact mod_lt _ (Nat.two_pow_pos 32)
  · obtain ⟨y, hy, rfl⟩ := List.mem_map.mp hx
    obtain ⟨hyP, hy1⟩ := mem_filter.mp hy
    have hyd := h.delay y hyP
    have hy1' : y.2 ≠ 1 := by simpa using hy1
    dsimp only
    omega
  · show Wheel (timerExecute (timerShift (timerExecute T).1)).1 _
    convert hwheel₃ using 1
    rw [htime, htime₂, tick, List.filter_map, List.map_map]
    have hfilter : (P.filter fun x => decide (x.2 ≠ 1)) = P.filter
        ((fun n : TimerNode α => decide (n.expire ≠ (T.time + 1) % 2 ^ 32)) ∘ nodeOf T.time) :=
      filter_congr fun x hx => decide_eq_decide.mpr (not_congr (hdue x hx)).symm
    rw [← hfilter]
    refine map_congr_left fun x hx => ?_
    have hxd := h.delay x (mem_filter.mp hx).1
    show nodeOf _ (x.1, x.2 - 1) = nodeOf _ x
    rw [nodeOf, nodeOf, TimerNode.mk.injEq]
    exact ⟨rfl, by dsimp only; omega⟩

/-! ### Runs -/

/-- A call; the delay is one the counter can tell from the past. -/
inductive Op (α : Type*) where
  | add (arg : α) (t : { t : ℕ // 1 ≤ t ∧ t < 2 ^ 31 })
  | update

/-- A run, with the events each update dispatches. -/
def run : Timer α → List (Op α) → Timer α × List (List α)
  | T, []               => (T, [])
  | T, .add arg t :: ops => run (timerAdd T arg t.1) ops
  | T, .update :: ops   =>
    let (T, nodes) := timerUpdate T
    let (T, out) := run T ops
    (T, nodes.map TimerNode.arg :: out)

/-- The number of updates. -/
def updates : List (Op α) → ℕ
  | []              => 0
  | .add _ _ :: ops => updates ops
  | .update :: ops  => updates ops + 1

/-- The events added, each with the number of the update it is for: the updates before it, and `t`. -/
def schedule : ℕ → List (Op α) → List (α × ℕ)
  | _, []               => []
  | u, .add arg t :: ops => (arg, u + t.1) :: schedule u ops
  | u, .update :: ops   => schedule (u + 1) ops

theorem le_of_mem_schedule {ops : List (Op α)} : ∀ {u : ℕ} {x : α × ℕ}, x ∈ schedule u ops → u < x.2 := by
  induction ops with
  | nil => exact fun h => nomatch h
  | cons op ops ih =>
    intro u x hx
    cases op with
    | add arg t =>
      rcases mem_cons.mp hx with rfl | hx
      · have ht := t.2.1
        dsimp only
        omega
      · exact ih hx
    | update => exact lt_of_succ_lt (ih hx)

theorem schedule_succ (ops : List (Op α)) :
    ∀ u, schedule (u + 1) ops = (schedule u ops).map fun x => (x.1, x.2 + 1) := by
  induction ops with
  | nil => exact fun _ => rfl
  | cons op ops ih =>
    intro u
    cases op with
    | add arg t => rw [schedule, schedule, map_cons, ih, Nat.add_right_comm]
    | update => exact ih (u + 1)

theorem due_append (P P' : List (α × ℕ)) (m : ℕ) : due (P ++ P') m = due P m ++ due P' m := by
  rw [due, filter_append, map_append]
  rfl

theorem due_tick (hP : ∀ x ∈ P, 1 ≤ x.2) (m : ℕ) : due (tick P) (m + 1) = due P (m + 1 + 1) := by
  rw [due, tick, List.filter_map, List.map_map, List.filter_filter, due]
  have hfilter : (P.filter fun x => ((fun y : α × ℕ => decide (y.2 = m + 1)) ∘
      fun y => (y.1, y.2 - 1)) x && decide (x.2 ≠ 1)) = P.filter fun x => decide (x.2 = m + 1 + 1) := by
    refine filter_congr fun x hx => ?_
    have hx1 := hP x hx
    rw [Bool.and_eq_decide, decide_eq_decide, comp_apply, decide_eq_true_iff,
      decide_eq_true_iff]
    omega
  rw [hfilter]
  rfl

theorem tick_append_schedule (P : List (α × ℕ)) (ops : List (Op α)) :
    tick (P ++ schedule 1 ops) = tick P ++ schedule 0 ops := by
  have hkeep : ((schedule 1 ops).filter fun x => decide (x.2 ≠ 1)) = schedule 1 ops :=
    filter_eq_self.mpr fun x hx => decide_eq_true (le_of_mem_schedule hx).ne'
  have hback : (schedule 1 ops).map (fun x => (x.1, x.2 - 1)) = schedule 0 ops := by
    rw [schedule_succ ops 0, List.map_map]
    exact List.map_id _
  rw [tick, tick, filter_append, map_append, hkeep, hback]

theorem later_tick (P : List (α × ℕ)) (k : ℕ) :
    ((tick P).filter fun x => decide (k < x.2)).map (fun x => (x.1, x.2 - k)) =
      (P.filter fun x => decide (k + 1 < x.2)).map fun x => (x.1, x.2 - (k + 1)) := by
  rw [tick, List.filter_map, List.map_map, List.filter_filter]
  have hfilter : (P.filter fun x => ((fun y : α × ℕ => decide (k < y.2)) ∘
      fun y => (y.1, y.2 - 1)) x && decide (x.2 ≠ 1)) = P.filter fun x => decide (k + 1 < x.2) := by
    refine filter_congr fun x _ => ?_
    rw [Bool.and_eq_decide, decide_eq_decide, comp_apply, decide_eq_true_iff,
      decide_eq_true_iff]
    omega
  rw [hfilter]
  refine map_congr_left fun x _ => ?_
  rw [comp_apply, Nat.sub_sub, Nat.add_comm 1]

/-- **A run** from a timer that holds `P`. -/
theorem run_spec (ops : List (Op α)) :
    ∀ {T : Timer α} {P : List (α × ℕ)}, Waits T P →
      (run T ops).2 = (List.range (updates ops)).map (fun m => due (P ++ schedule 0 ops) (m + 1)) ∧
      (run T ops).1.time = (T.time + updates ops) % 2 ^ 32 ∧
      Waits (run T ops).1 (((P ++ schedule 0 ops).filter fun x => decide (updates ops < x.2)).map
        fun x => (x.1, x.2 - updates ops)) := by
  induction ops with
  | nil =>
    intro T P h
    have hkeep : (P.filter fun x => decide (0 < x.2)) = P :=
      filter_eq_self.mpr fun x hx => decide_eq_true (h.delay x hx).1
    refine ⟨rfl, (mod_eq_of_lt h.time_lt).symm, ?_⟩
    rw [schedule, append_nil, updates, hkeep, run]
    simpa using h
  | cons op ops ih =>
    intro T P h
    cases op with
    | add arg t =>
      obtain ⟨hadd, htime⟩ := h.add arg t.2.1 t.2.2
      obtain ⟨hout, htime', hwaits⟩ := ih hadd
      rw [List.append_assoc, singleton_append] at hwaits
      simp only [List.append_assoc, singleton_append] at hout
      refine ⟨?_, htime'.trans (by rw [htime]; rfl), ?_⟩
      · rw [run, hout, schedule, Nat.zero_add]
        rfl
      · rw [run, schedule, Nat.zero_add]
        exact hwaits
    | update =>
      obtain ⟨hnow, hwaits, htime⟩ := h.update
      obtain ⟨hout, htime', hwaits'⟩ := ih hwaits
      have hlate : ∀ x ∈ schedule 1 ops, 1 < x.2 := fun x hx => le_of_mem_schedule hx
      have hdelay : ∀ x ∈ P ++ schedule 1 ops, 1 ≤ x.2 := by
        intro x hx
        rcases mem_append.mp hx with hx | hx
        · exact (h.delay x hx).1
        · exact (hlate x hx).le
      have hnone : due (schedule 1 ops) 1 = [] := by
        rw [due, filter_eq_nil_iff.mpr, map_nil]
        exact fun x hx => by simpa using (hlate x hx).ne'
      rw [← tick_append_schedule] at hout hwaits'
      refine ⟨?_, ?_, ?_⟩
      · rw [run, schedule, updates, range_succ_eq_map, map_cons, List.map_map, due_append,
          hnone, append_nil]
        refine cons_eq_cons.mpr ⟨hnow, hout.trans (map_congr_left fun m _ => ?_)⟩
        exact due_tick hdelay m
      · rw [run, updates]
        dsimp only
        rw [htime', htime]
        omega
      · rw [run, schedule, updates, ← later_tick]
        exact hwaits'

theorem waits_create (α : Type*) (start : UInt32) : Waits (timerCreateTimer α start.toNat) [] :=
  ⟨start.toNat_lt, fun _ => (nomatch ·), fun p => by cases p <;> rfl⟩

/-- **Every node fires once, and on time**, whatever the counter starts with: the `m`-th update
dispatches the events added with a delay that ends there, in the order in which they were added, and
each other event is in the list its expiry and the time say. -/
theorem timer_run (start : UInt32) (ops : List (Op α)) :
    let r := run (timerCreateTimer α start.toNat) ops
    r.2 = (List.range (updates ops)).map (fun m => due (schedule 0 ops) (m + 1)) ∧
    r.1.time = (start.toNat + updates ops) % 2 ^ 32 ∧
    ∀ p, r.1.slot p =
      (((schedule 0 ops).filter fun x => decide (updates ops < x.2)).map
        fun x => (⟨x.1, (start.toNat + x.2) % 2 ^ 32⟩ : TimerNode α)).filter
          fun n => decide (place n.expire r.1.time = p) := by
  intro r
  obtain ⟨hout, htime, hwaits⟩ := run_spec ops (waits_create α start)
  rw [nil_append] at hwaits
  refine ⟨hout, htime, fun p => ?_⟩
  rw [hwaits.wheel p, List.map_map]
  congr 1
  refine map_congr_left fun x hx => ?_
  have hlt : updates ops < x.2 := of_decide_eq_true (mem_filter.mp hx).2
  rw [comp_apply, nodeOf, TimerNode.mk.injEq]
  refine ⟨rfl, ?_⟩
  rw [htime]
  show ((start.toNat + updates ops) % 2 ^ 32 + (x.2 - updates ops)) % 2 ^ 32 = _
  rw [mod_add_mod]
  congr 1
  omega

end SourceLibs.SkynetTimer
