import Mathlib.Data.Int.Order.Basic
import Mathlib.Tactic.IntervalCases

/-!
# Gregorian — the calendar

`date_time/gregorian_calendar.ipp`, with the types of `gregorian_calendar`: `unsigned short` for
a year, a month and a day, and `uint32_t` for a day number.  The expressions mix `unsigned short`,
`int`, `unsigned long` and `uint32_t`, so each function is written once over a `Conversion`, which
says what becomes of a value given to one of these types.  Under `machine` an unsigned type reduces
it modulo its width; under `checked` a value its type does not hold stops the computation.  A
function *does not wrap* at an argument when its `checked` run returns.

* `dayNumber_eq`: on a valid date the run of `day_number` does not wrap, and returns `number`.
* `Valid.number_next`: the day after has the next number.
* `Valid.number_lt`: numbers follow the order of dates.
* `Valid.fromDayNumber_checked`: the run of `from_day_number` on a date's number does not wrap,
  except in the first two months of year 0, and returns the date.
* `calendar_order_isomorphism`: these, on the machine, for the years `0 … 60735`.

A year here starts in March: `y'` counts such years and `e` the days in one.  With `y' = 100 b + c`
the days before it are `⌊146097 b / 4⌋ + ⌊1461 c / 4⌋`, the two divisions `from_day_number` inverts.
-/

namespace SourceLibs.Gregorian
open Option Int

/-! ### Conversions -/

/-- The integer types of the expressions. -/
inductive IntType where
  | unsigned (w : ℕ)
  | int

/-- `x` is a value of the type. -/
def IntType.Holds (x : ℤ) : IntType → Prop
  | unsigned w => 0 ≤ x ∧ x < 2 ^ w
  | int => -2 ^ 31 ≤ x ∧ x < 2 ^ 31

instance (x : ℤ) : DecidablePred (IntType.Holds x)
  | .unsigned w => inferInstanceAs (Decidable (0 ≤ x ∧ x < 2 ^ w))
  | .int => inferInstanceAs (Decidable (-2 ^ 31 ≤ x ∧ x < 2 ^ 31))

/-- What becomes of a value given to a type. -/
abbrev Conversion := IntType → ℤ → Option ℤ

/-- Unsigned types wrap; an `int` out of range is undefined behaviour. -/
def machine : Conversion
  | .unsigned w, x => some (x % 2 ^ w)
  | .int, x => if IntType.int.Holds x then some x else none

/-- No value leaves the range of its type. -/
def checked : Conversion := fun t x => if t.Holds x then some x else none

abbrev ushort : IntType := .unsigned 16

abbrev uint32 : IntType := .unsigned 32

abbrev ulong : IntType := .unsigned 64

/-- A conversion keeps the values its type holds. -/
def Conversion.Keeps (conv : Conversion) : Prop := ∀ t x, t.Holds x → conv t x = some x

theorem keeps_machine : machine.Keeps := by
  rintro (w | _) x hx
  · exact congrArg some (emod_eq_of_lt hx.1 hx.2)
  · exact if_pos hx

theorem keeps_checked : checked.Keeps := fun _ _ hx => if_pos hx

theorem holds_unsigned {w : ℕ} {x : ℤ} (h₀ : 0 ≤ x) (h₁ : x < 2 ^ w) :
    (IntType.unsigned w).Holds x := ⟨h₀, h₁⟩

theorem holds_int {x : ℤ} (h₀ : 0 ≤ x) (h₁ : x < 2 ^ 31) : IntType.int.Holds x :=
  ⟨by omega, h₁⟩

theorem Conversion.Keeps.bind {conv : Conversion} (hc : conv.Keeps) {t : IntType} {x : ℤ}
    {β : Type} {f : ℤ → Option β} {r : Option β} (hx : t.Holds x) (hf : f x = r) :
    (conv t x >>= f) = r := by
  rw [hc t x hx]
  exact hf

/-! ### The functions -/

/-- `ymd_type`. -/
structure YearMonthDay where
  year : ℤ
  month : ℤ
  day : ℤ
  deriving DecidableEq, Repr

def isLeapYear (year : ℤ) : Bool :=
  year % 4 = 0 && (year % 100 ≠ 0 || year % 400 = 0)

def endOfMonthDay (year month : ℤ) : ℤ :=
  if month = 2 then if isLeapYear year then 29 else 28
  else if month = 4 ∨ month = 6 ∨ month = 9 ∨ month = 11 then 30
  else 31

section
variable (conv : Conversion)

/-- `day_of_week`: 0 is Sunday. -/
def dayOfWeek (ymd : YearMonthDay) : Option ℤ := do
  let a ← conv ushort ((14 - ymd.month).tdiv 12)
  let y ← conv ushort (ymd.year - a)
  let m ← conv ushort (ymd.month + 12 * a - 2)
  let s ← conv .int (ymd.day + y + y / 4)
  let s ← conv .int (s - y / 100)
  let s ← conv .int (s + y / 400 + 31 * m / 12)
  conv ushort (s.tmod 7)

def dayNumber (ymd : YearMonthDay) : Option ℤ := do
  let a ← conv ushort ((14 - ymd.month).tdiv 12)
  let y ← conv ushort (ymd.year + 4800 - a)
  let m ← conv ushort (ymd.month + 12 * a - 3)
  let s ← conv .int (ymd.day + (153 * m + 2) / 5 + 365 * y + y / 4)
  let s ← conv .int (s - y / 100)
  let s ← conv .int (s + y / 400 - 32045)
  let d ← conv ulong s
  conv uint32 d

def julianDayNumber (ymd : YearMonthDay) : Option ℤ := dayNumber conv ymd

/-- The variables `b`, `d` and `m` of `from_day_number`, and `day` and `month`. -/
def fromDayNumberVars (dayNumber : ℤ) : Option (ℤ × ℤ × ℤ × ℤ × ℤ) := do
  let a ← conv uint32 (dayNumber + 32044)
  let t ← conv uint32 (4 * a + 3)
  let b := t / 146097
  let t ← conv uint32 (146097 * b)
  let c ← conv uint32 (a - t / 4)
  let t ← conv uint32 (4 * c + 3)
  let d := t / 1461
  let t ← conv uint32 (1461 * d)
  let e ← conv uint32 (c - t / 4)
  let t ← conv uint32 (5 * e + 2)
  let m := t / 153
  let t ← conv uint32 (153 * m + 2)
  let t ← conv uint32 (e - t / 5)
  let t ← conv uint32 (t + 1)
  let day ← conv ushort t
  let t ← conv uint32 (m + 3)
  let t ← conv uint32 (t - 12 * (m / 10))
  let month ← conv ushort t
  some (b, d, m, day, month)

/-- `100*b + d - 4800 + (m/10)`. -/
def yearOf (b d m : ℤ) : Option ℤ := do
  let t ← conv uint32 (100 * b + d)
  let t ← conv uint32 (t - 4800)
  conv uint32 (t + m / 10)

/-- `from_day_number`, which converts the year twice. -/
def fromDayNumber (dayNumber : ℤ) : Option YearMonthDay := do
  let (b, d, m, day, month) ← fromDayNumberVars conv dayNumber
  let t ← yearOf conv b d m
  let year ← conv ushort t
  let year ← conv ushort year
  some ⟨year, month, day⟩

def fromJulianDayNumber (dayNumber : ℤ) : Option YearMonthDay := do
  let (b, d, m, day, month) ← fromDayNumberVars conv dayNumber
  let t ← yearOf conv b d m
  let year ← conv ushort t
  some ⟨year, month, day⟩

def modjulianDayNumber (ymd : YearMonthDay) : Option ℤ := do
  let n ← julianDayNumber conv ymd
  conv uint32 (n - 2400001)

def fromModjulianDayNumber (dayNumber : ℤ) : Option YearMonthDay := do
  let jd ← conv uint32 (dayNumber + 2400001)
  fromJulianDayNumber conv jd

end

/-! ### Dates and their numbers -/

namespace YearMonthDay

/-- A date of the calendar, in the years `y + 4800` fits sixteen bits for. -/
structure Valid (ymd : YearMonthDay) : Prop where
  year_nonneg : 0 ≤ ymd.year
  year_le : ymd.year ≤ 60735
  month_pos : 1 ≤ ymd.month
  month_le : ymd.month ≤ 12
  day_pos : 1 ≤ ymd.day
  day_le : ymd.day ≤ endOfMonthDay ymd.year ymd.month

/-- A date of the calendar in any year. -/
structure IsDate (ymd : YearMonthDay) : Prop where
  month_pos : 1 ≤ ymd.month
  month_le : ymd.month ≤ 12
  day_pos : 1 ≤ ymd.day
  day_le : ymd.day ≤ endOfMonthDay ymd.year ymd.month

theorem Valid.isDate {ymd : YearMonthDay} (h : ymd.Valid) : ymd.IsDate :=
  ⟨h.month_pos, h.month_le, h.day_pos, h.day_le⟩

/-- The date comes before the other. -/
def Before (a b : YearMonthDay) : Prop :=
  a.year < b.year ∨
    a.year = b.year ∧ (a.month < b.month ∨ a.month = b.month ∧ a.day < b.day)

/-- The calendar's next day. -/
def next (ymd : YearMonthDay) : YearMonthDay :=
  if ymd.day < endOfMonthDay ymd.year ymd.month then ⟨ymd.year, ymd.month, ymd.day + 1⟩
  else if ymd.month < 12 then ⟨ymd.year, ymd.month + 1, 1⟩
  else ⟨ymd.year + 1, 1, 1⟩

/-- In the first two months of year 0: the year that starts in March is negative. -/
def Early (ymd : YearMonthDay) : Prop := ymd.year = 0 ∧ ymd.month ≤ 2

end YearMonthDay

open YearMonthDay

/-- January and February belong to the year that started in March before. -/
def shift (month : ℤ) : ℤ := if month ≤ 2 then 1 else 0

/-- The days before year `y`, up to a constant. -/
def daysBefore (y : ℤ) : ℤ := 365 * y + y / 4 - y / 100 + y / 400

/-- The day of a year that starts in March, from 0; `m` is 0 for March. -/
def dayOfMarchYear (m day : ℤ) : ℤ := (153 * m + 2) / 5 + day - 1

/-- The number of a date. -/
def number (ymd : YearMonthDay) : ℤ :=
  daysBefore (ymd.year + 4800 - shift ymd.month) +
    dayOfMarchYear (ymd.month + 12 * shift ymd.month - 3) ymd.day - 32044

theorem tdiv_eq_shift {month : ℤ} (h₁ : 1 ≤ month) (h₂ : month ≤ 12) :
    (14 - month).tdiv 12 = shift month := by
  rw [tdiv_eq_ediv_of_nonneg (by omega), shift]
  split <;> omega

theorem endOfMonthDay_bounds (year month : ℤ) :
    28 ≤ endOfMonthDay year month ∧ endOfMonthDay year month ≤ 31 := by
  unfold endOfMonthDay
  split_ifs <;> omega

/-- **`day_number` does not wrap.** -/
theorem dayNumber_eq {conv : Conversion} (hc : conv.Keeps) {ymd : YearMonthDay}
    (hy : 0 ≤ ymd.year) (hy' : ymd.year + 4800 - shift ymd.month < 2 ^ 16) (hm : 1 ≤ ymd.month)
    (hm' : ymd.month ≤ 12) (hd : 1 ≤ ymd.day) (hd' : ymd.day ≤ 31) :
    dayNumber conv ymd = some (number ymd) := by
  have hs : 0 ≤ shift ymd.month ∧ shift ymd.month ≤ 1 ∧
      1 ≤ ymd.month + 12 * shift ymd.month - 2 ∧ ymd.month + 12 * shift ymd.month ≤ 14 := by
    unfold shift
    split <;> omega
  unfold dayNumber number daysBefore dayOfMarchYear
  rw [tdiv_eq_shift hm hm']
  refine hc.bind (holds_unsigned (by omega) (by omega)) ?_
  refine hc.bind (holds_unsigned (by omega) hy') ?_
  refine hc.bind (holds_unsigned (by omega) (by omega)) ?_
  refine hc.bind (holds_int (by omega) (by omega)) ?_
  refine hc.bind (holds_int (by omega) (by omega)) ?_
  refine hc.bind (holds_int (by omega) (by omega)) ?_
  refine hc.bind (holds_unsigned (by omega) (by omega)) ?_
  rw [hc _ _ (holds_unsigned (by omega) (by omega))]
  exact congrArg some (by omega)

/-! ### Numbers follow the calendar -/

theorem endOfMonthDay_two (year : ℤ) :
    endOfMonthDay year 2 = 28 + if isLeapYear year then 1 else 0 := by
  unfold endOfMonthDay
  split_ifs <;> omega

theorem isLeapYear_iff (y : ℤ) :
    isLeapYear y = true ↔ y % 4 = 0 ∧ (y % 100 ≠ 0 ∨ y % 400 = 0) := by
  simp [isLeapYear]

theorem daysBefore_succ (y : ℤ) :
    daysBefore (y + 1) = daysBefore y + 365 + if isLeapYear (y + 1) then 1 else 0 := by
  unfold daysBefore
  split
  · rename_i h
    rw [isLeapYear_iff] at h
    omega
  · rename_i h
    rw [isLeapYear_iff] at h
    omega

theorem isLeapYear_add_4800 (y : ℤ) : isLeapYear (y + 4800) = isLeapYear y := by
  rw [Bool.eq_iff_iff, isLeapYear_iff, isLeapYear_iff]
  omega

theorem daysBefore_add_4800 (y : ℤ) : daysBefore (y + 4800) = daysBefore y + 1753164 := by
  unfold daysBefore
  omega

theorem number_day (y m d : ℤ) : number ⟨y, m, d⟩ = number ⟨y, m, 1⟩ + d - 1 := by
  simp only [number, dayOfMarchYear]
  omega

theorem number_month_succ {y m : ℤ} (h₁ : 1 ≤ m) (h₂ : m < 12) :
    number ⟨y, m + 1, 1⟩ = number ⟨y, m, 1⟩ + endOfMonthDay y m := by
  have hfeb : daysBefore (y + 4800) = daysBefore (y + 4800 - 1) + 365 +
      if isLeapYear y then 1 else 0 := by
    have h := daysBefore_succ (y + 4800 - 1)
    rwa [Int.sub_add_cancel, isLeapYear_add_4800] at h
  unfold number dayOfMarchYear
  interval_cases m
  case «2» =>
    -- the year that starts in March
    rw [endOfMonthDay_two]
    simp only [shift]
    norm_num
    omega
  all_goals
    simp only [shift, endOfMonthDay]
    norm_num
    omega

theorem number_year_succ (y : ℤ) : number ⟨y + 1, 1, 1⟩ = number ⟨y, 12, 1⟩ + 31 := by
  have e : y + 1 + 4800 - shift 1 = y + 4800 - shift 12 := by
    simp only [shift]
    norm_num
    omega
  unfold number
  rw [e]
  simp only [shift, dayOfMarchYear]
  norm_num
  omega

/-- The number of the first of a month, the months counted through. -/
def firstOfMonth (k : ℤ) : ℤ := number ⟨k / 12, k % 12 + 1, 1⟩

theorem firstOfMonth_succ (k : ℤ) :
    firstOfMonth (k + 1) = firstOfMonth k + endOfMonthDay (k / 12) (k % 12 + 1) := by
  unfold firstOfMonth
  rcases eq_or_ne (k % 12) 11 with h | h
  · rw [show (k + 1) / 12 = k / 12 + 1 by omega, show (k + 1) % 12 = 0 by omega, h]
    exact number_year_succ _
  · rw [show (k + 1) / 12 = k / 12 by omega, show (k + 1) % 12 = k % 12 + 1 by omega]
    exact number_month_succ (by omega) (by omega)

theorem firstOfMonth_le {j k : ℤ} (hjk : j ≤ k) : firstOfMonth j ≤ firstOfMonth k := by
  refine monotone_int_of_le_succ (fun k => ?_) hjk
  have := (endOfMonthDay_bounds (k / 12) (k % 12 + 1)).1
  rw [firstOfMonth_succ]
  omega

namespace YearMonthDay

/-- The month of a date, the months counted through. -/
def monthIndex (ymd : YearMonthDay) : ℤ := 12 * ymd.year + (ymd.month - 1)

theorem monthIndex_div {ymd : YearMonthDay} (h₁ : 1 ≤ ymd.month) (h₂ : ymd.month ≤ 12) :
    ymd.monthIndex / 12 = ymd.year ∧ ymd.monthIndex % 12 + 1 = ymd.month := by
  unfold monthIndex
  omega

variable {ymd ymd' : YearMonthDay}

theorem number_eq_firstOfMonth (h₁ : 1 ≤ ymd.month) (h₂ : ymd.month ≤ 12) :
    number ymd = firstOfMonth ymd.monthIndex + ymd.day - 1 := by
  obtain ⟨e₁, e₂⟩ := monthIndex_div h₁ h₂
  rw [firstOfMonth, e₁, e₂]
  exact number_day _ _ _

theorem IsDate.number_lt_firstOfMonth (h : ymd.IsDate) :
    number ymd < firstOfMonth (ymd.monthIndex + 1) := by
  obtain ⟨e₁, e₂⟩ := monthIndex_div h.month_pos h.month_le
  have := h.day_le
  rw [firstOfMonth_succ, e₁, e₂, number_eq_firstOfMonth h.month_pos h.month_le]
  omega

/-- **Numbers follow the order of dates.** -/
theorem Valid.number_lt (h : ymd.Valid) (h' : ymd'.Valid) (hb : ymd.Before ymd') :
    number ymd < number ymd' := by
  have hm := h.month_le
  have hm' := h'.month_pos
  have hd' := h'.day_pos
  have e' := number_eq_firstOfMonth h'.month_pos h'.month_le
  have lt_of_month : ymd.monthIndex < ymd'.monthIndex → number ymd < number ymd' := fun hlt => by
    have h₁ := h.isDate.number_lt_firstOfMonth
    have h₂ := firstOfMonth_le (Int.add_one_le_of_lt hlt)
    omega
  rcases hb with hy | ⟨hy, hmo | ⟨hmo, hda⟩⟩
  · exact lt_of_month (by unfold monthIndex; omega)
  · exact lt_of_month (by unfold monthIndex; omega)
  · have e := number_eq_firstOfMonth h.month_pos h.month_le
    have ei : ymd.monthIndex = ymd'.monthIndex := by rw [monthIndex, hy, hmo, monthIndex]
    rw [e, e', ei]
    omega

theorem Valid.next_bounds (h : ymd.Valid) :
    0 ≤ ymd.next.year ∧ ymd.next.year + 4800 - shift ymd.next.month < 2 ^ 16 ∧
      1 ≤ ymd.next.month ∧ ymd.next.month ≤ 12 ∧ 1 ≤ ymd.next.day ∧ ymd.next.day ≤ 31 := by
  obtain ⟨hy, hy', hm, hm', hd, -⟩ := h
  have he := (endOfMonthDay_bounds ymd.year ymd.month).2
  unfold next shift
  split_ifs <;> simp only at * <;> omega

theorem IsDate.next (h : ymd.IsDate) : ymd.next.IsDate := by
  obtain ⟨hm, hm', hd, hd'⟩ := h
  unfold YearMonthDay.next
  split_ifs with h₁ h₂
  · exact ⟨hm, hm', by simp only; omega, by simp only; omega⟩
  · have := (endOfMonthDay_bounds ymd.year (ymd.month + 1)).1
    exact ⟨by simp only; omega, by simp only; omega, le_rfl, by simp only; omega⟩
  · have := (endOfMonthDay_bounds (ymd.year + 1) 1).1
    exact ⟨le_rfl, by simp only; omega, le_rfl, by simp only; omega⟩

theorem IsDate.number_next (h : ymd.IsDate) : number ymd.next = number ymd + 1 := by
  obtain ⟨y, m, d⟩ := ymd
  obtain ⟨hm, hm', -, hd⟩ := h
  simp only [YearMonthDay.next] at hm hm' hd ⊢
  split
  · rw [number_day, number_day y m d]
    omega
  · have hlast : d = endOfMonthDay y m := by omega
    split
    · rename_i hlt
      rw [number_month_succ hm hlt, number_day y m d]
      omega
    · obtain rfl : m = 12 := by omega
      have hdec : endOfMonthDay y 12 = 31 := rfl
      rw [number_year_succ, number_day y 12 d]
      omega

/-- **The next day has the next number.** -/
theorem Valid.number_next (h : ymd.Valid) : number ymd.next = number ymd + 1 := h.isDate.number_next

end YearMonthDay

/-! ### From a number back to the date -/

theorem daysBefore_century (b c : ℤ) (hc : 0 ≤ c) (hc' : c < 100) :
    daysBefore (100 * b + c) = 146097 * b / 4 + 1461 * c / 4 := by
  have h₁ : (100 * b + c) / 4 = 25 * b + c / 4 := by omega
  have h₂ : (100 * b + c) / 100 = b := by omega
  have h₃ : (100 * b + c) / 400 = b / 4 := by omega
  have h₄ : 146097 * b / 4 = 36524 * b + b / 4 := by omega
  have h₅ : 1461 * c / 4 = 365 * c + c / 4 := by omega
  rw [daysBefore, h₁, h₂, h₃, h₄, h₅]
  omega

/-- The last day of a year is its 365th or 366th. -/
theorem daysBefore_add_lt {y e : ℤ} (he : e < 365 + if isLeapYear (y + 1) then 1 else 0) :
    daysBefore y + e < daysBefore (y + 1) := by
  rw [daysBefore_succ]
  omega

theorem century_eq {b c e : ℤ} (hc : 0 ≤ c) (hc' : c < 100) (he : 0 ≤ e)
    (he' : daysBefore (100 * b + c) + e < daysBefore (100 * b + c + 1)) :
    (4 * (daysBefore (100 * b + c) + e) + 3) / 146097 = b := by
  have h₀ := daysBefore_century b c hc hc'
  have hlt : daysBefore (100 * b + c) + e < 146097 * (b + 1) / 4 := by
    rcases eq_or_ne c 99 with rfl | hne
    · have h₁ := daysBefore_century (b + 1) 0 le_rfl (by decide)
      rw [show 100 * (b + 1) + 0 = 100 * b + 99 + 1 by omega] at h₁
      omega
    · have h₁ := daysBefore_century b (c + 1) (by omega) (by omega)
      rw [← Int.add_assoc] at h₁
      omega
  omega

theorem year_eq {b c e : ℤ} (hc : 0 ≤ c) (hc' : c < 100) (he : 0 ≤ e) (he₁ : e < 366)
    (he' : daysBefore (100 * b + c) + e < daysBefore (100 * b + c + 1)) :
    (4 * (1461 * c / 4 + e) + 3) / 1461 = c := by
  have h₀ := daysBefore_century b c hc hc'
  rcases eq_or_ne c 99 with rfl | hne
  · omega
  · have h₁ := daysBefore_century b (c + 1) (by omega) (by omega)
    rw [← Int.add_assoc] at h₁
    omega

theorem month_eq {m day : ℤ} (hd : 1 ≤ day)
    (hd' : (153 * m + 2) / 5 + day ≤ (153 * (m + 1) + 2) / 5) :
    (5 * dayOfMarchYear m day + 2) / 153 = m := by
  unfold dayOfMarchYear
  omega

namespace YearMonthDay
variable {ymd : YearMonthDay}

/-- The month, counted from March. -/
def marchMonth (ymd : YearMonthDay) : ℤ := ymd.month + 12 * shift ymd.month - 3

/-- The year that started in the last March. -/
def marchYear (ymd : YearMonthDay) : ℤ := ymd.year + 4800 - shift ymd.month

theorem Valid.march (h : ymd.Valid) :
    0 ≤ ymd.marchMonth ∧ ymd.marchMonth ≤ 11 ∧ ymd.marchMonth / 10 = shift ymd.month ∧
      4799 ≤ ymd.marchYear ∧ ymd.marchYear ≤ 65535 := by
  obtain ⟨hy, hy', hm, hm', -, -⟩ := h
  unfold marchMonth marchYear shift
  split <;> omega

theorem Valid.day_le_month (h : ymd.Valid) :
    (153 * ymd.marchMonth + 2) / 5 + ymd.day ≤ (153 * (ymd.marchMonth + 1) + 2) / 5 := by
  obtain ⟨y, m, d⟩ := ymd
  obtain ⟨-, -, hm, hm', -, hd⟩ := h
  simp only [marchMonth, shift] at hm hm' hd ⊢
  interval_cases m
  case «2» =>
    have := endOfMonthDay_two y
    split at this <;> norm_num <;> omega
  all_goals
    norm_num [endOfMonthDay] at hd ⊢
    omega

theorem Valid.dayOfMarchYear_bounds (h : ymd.Valid) :
    0 ≤ dayOfMarchYear ymd.marchMonth ymd.day ∧ dayOfMarchYear ymd.marchMonth ymd.day <
      365 + if isLeapYear (ymd.marchYear + 1) then 1 else 0 := by
  have hd := h.day_pos
  have hle := h.day_le
  obtain ⟨h₀, h₁, hsh, -, -⟩ := h.march
  have hmonth := h.day_le_month
  unfold dayOfMarchYear
  refine ⟨by omega, ?_⟩
  rcases eq_or_ne ymd.marchMonth 11 with h₁₁ | hne
  · -- February
    have hm : ymd.month = 2 := by
      rw [h₁₁] at hsh
      have := hsh.symm
      simp only [marchMonth] at h₁₁
      omega
    have hy : isLeapYear (ymd.marchYear + 1) = isLeapYear ymd.year := by
      rw [marchYear, hm, ← isLeapYear_add_4800 ymd.year]
      congr 1
      simp only [shift]
      omega
    rw [hm, endOfMonthDay_two] at hle
    rw [hy, h₁₁]
    omega
  · omega

/-- **The variables of `from_day_number`** on a date's number. -/
theorem Valid.fromDayNumberVars_eq {conv : Conversion} (hc : conv.Keeps) (h : ymd.Valid) :
    fromDayNumberVars conv (number ymd) =
      some (ymd.marchYear / 100, ymd.marchYear % 100, ymd.marchMonth, ymd.day, ymd.month) := by
  obtain ⟨h₀, h₁, hsh, hY, hY'⟩ := h.march
  obtain ⟨he, he'⟩ := h.dayOfMarchYear_bounds
  have hm := h.month_pos
  have hm' := h.month_le
  have hd := h.day_pos
  have hd' := h.day_le.trans (endOfMonthDay_bounds _ _).2
  have hmonth := month_eq hd h.day_le_month
  have hsh' : ymd.marchMonth + 3 - 12 * shift ymd.month = ymd.month := by
    unfold marchMonth
    omega
  have hn : number ymd + 32044 =
      daysBefore ymd.marchYear + dayOfMarchYear ymd.marchMonth ymd.day := by
    unfold number marchYear marchMonth
    omega
  have hday : dayOfMarchYear ymd.marchMonth ymd.day - (153 * ymd.marchMonth + 2) / 5 + 1 =
      ymd.day := by
    unfold dayOfMarchYear
    omega
  have hlt := daysBefore_add_lt he'
  generalize dayOfMarchYear ymd.marchMonth ymd.day = e at *
  generalize ymd.marchMonth = m at *
  obtain ⟨b, c, hb, hc₀, hc₁⟩ : ∃ b c, ymd.marchYear = 100 * b + c ∧ 0 ≤ c ∧ c < 100 :=
    ⟨ymd.marchYear / 100, ymd.marchYear % 100, by omega, by omega, by omega⟩
  have he₁ : e < 366 := by
    split at he' <;> omega
  rw [hb] at hn hlt hY hY' ⊢
  rw [show (100 * b + c) / 100 = b by omega, show (100 * b + c) % 100 = c by omega]
  -- the three divisions of the routine: by centuries, by years, by months
  have hcent := century_eq hc₀ hc₁ he hlt
  have hyear := year_eq hc₀ hc₁ he he₁ hlt
  have hsplit := daysBefore_century b c hc₀ hc₁
  rw [← hn] at hcent
  -- no intermediate wraps
  unfold fromDayNumberVars
  refine hc.bind (holds_unsigned (by omega) (by omega)) ?_
  refine hc.bind (holds_unsigned (by omega) (by omega)) ?_
  simp only [hcent]
  refine hc.bind (holds_unsigned (by omega) (by omega)) ?_
  rw [show number ymd + 32044 - 146097 * b / 4 = 1461 * c / 4 + e by omega]
  refine hc.bind (holds_unsigned (by omega) (by omega)) ?_
  refine hc.bind (holds_unsigned (by omega) (by omega)) ?_
  simp only [hyear]
  refine hc.bind (holds_unsigned (by omega) (by omega)) ?_
  rw [show 1461 * c / 4 + e - 1461 * c / 4 = e by omega]
  refine hc.bind (holds_unsigned (by omega) (by omega)) ?_
  refine hc.bind (holds_unsigned (by omega) (by omega)) ?_
  simp only [hmonth, hsh]
  refine hc.bind (holds_unsigned (by omega) (by omega)) ?_
  refine hc.bind (holds_unsigned (by omega) (by omega)) ?_
  rw [hday]
  refine hc.bind (holds_unsigned (by omega) (by omega)) ?_
  refine hc.bind (holds_unsigned (by omega) (by omega)) ?_
  refine hc.bind (holds_unsigned (by omega) (by omega)) ?_
  rw [hsh']
  refine hc.bind (holds_unsigned (by omega) (by omega)) ?_
  exact hc.bind (holds_unsigned (by omega) (by omega)) rfl

end YearMonthDay

theorem yearOf_machine (b d m : ℤ) :
    yearOf machine b d m = some ((100 * b + d - 4800 + m / 10) % 2 ^ 32) := by
  show some _ = some _
  rw [emod_sub_emod, emod_add_emod]

theorem yearOf_eq {conv : Conversion} (hc : conv.Keeps) {b d m : ℤ} (h : 4800 ≤ 100 * b + d)
    (h' : 100 * b + d ≤ 65535) (hm : 0 ≤ m / 10) (hm' : m / 10 ≤ 1) :
    yearOf conv b d m = some (100 * b + d - 4800 + m / 10) := by
  refine hc.bind (holds_unsigned (by omega) (by omega)) ?_
  refine hc.bind (holds_unsigned (by omega) (by omega)) ?_
  exact hc _ _ (holds_unsigned (by omega) (by omega))

theorem fromJulianDayNumber_eq (n : ℤ) :
    fromJulianDayNumber machine n = fromDayNumber machine n := by
  unfold fromJulianDayNumber fromDayNumber
  have twice : ∀ x y : ℤ, machine ushort x = some y → machine ushort y = some y := by
    rintro x y ⟨⟩
    exact congrArg some (emod_emod_of_dvd _ (dvd_refl _))
  congr 1
  funext ⟨b, d, m, day, month⟩
  dsimp only
  congr 1
  funext t
  cases h : machine ushort t with
  | none => rfl
  | some y => simp only [bind_eq_bind, bind_some, twice t y h]

namespace YearMonthDay
variable {ymd : YearMonthDay}

theorem Valid.fromDayNumber_of_yearOf {conv : Conversion} (hc : conv.Keeps) (h : ymd.Valid)
    (hy : yearOf conv (ymd.marchYear / 100) (ymd.marchYear % 100) ymd.marchMonth =
      some ymd.year) :
    fromDayNumber conv (number ymd) = some ymd := by
  have h₀ := h.year_nonneg
  have h₁ := h.year_le
  unfold fromDayNumber
  rw [h.fromDayNumberVars_eq hc, bind_eq_bind, bind_some]
  dsimp only
  rw [hy, bind_eq_bind, bind_some]
  refine hc.bind (holds_unsigned h₀ (by omega)) ?_
  exact hc.bind (holds_unsigned h₀ (by omega)) rfl

theorem Valid.year_eq_march (h : ymd.Valid) :
    100 * (ymd.marchYear / 100) + ymd.marchYear % 100 - 4800 + ymd.marchMonth / 10 =
      ymd.year := by
  rw [h.march.2.2.1, mul_ediv_add_emod]
  unfold marchYear
  omega

theorem Valid.dayNumber_eq_number {conv : Conversion} (hc : conv.Keeps) (h : ymd.Valid) :
    dayNumber conv ymd = some (number ymd) := by
  have hY := h.march.2.2.2.2
  unfold marchYear at hY
  exact dayNumber_eq hc h.year_nonneg (by omega) h.month_pos h.month_le h.day_pos
    (h.day_le.trans (endOfMonthDay_bounds _ _).2)

/-- **Round trip**, on the machine. -/
theorem Valid.fromDayNumber_machine (h : ymd.Valid) :
    fromDayNumber machine (number ymd) = some ymd := by
  have h₀ := h.year_nonneg
  have h₁ := h.year_le
  refine h.fromDayNumber_of_yearOf keeps_machine ?_
  rw [yearOf_machine, h.year_eq_march, emod_eq_of_lt h₀ (by omega)]

/-- The modified Julian day of a date before 1858 wraps, and gives back the date. -/
theorem Valid.fromModjulianDayNumber_machine (h : ymd.Valid) :
    (modjulianDayNumber machine ymd >>= fromModjulianDayNumber machine) = some ymd := by
  have hlt : 0 ≤ number ymd ∧ number ymd < 2 ^ 32 := by
    obtain ⟨-, -, -, hY, hY'⟩ := h.march
    obtain ⟨he, he'⟩ := h.dayOfMarchYear_bounds
    have hn : number ymd = daysBefore ymd.marchYear +
        dayOfMarchYear ymd.marchMonth ymd.day - 32044 := rfl
    rw [hn]
    unfold daysBefore
    split at he' <;> omega
  have hback : ((number ymd - 2400001) % 2 ^ 32 + 2400001) % 2 ^ 32 = number ymd := by
    rw [emod_add_emod, Int.sub_add_cancel, emod_eq_of_lt hlt.1 hlt.2]
  unfold modjulianDayNumber julianDayNumber fromModjulianDayNumber
  rw [h.dayNumber_eq_number keeps_machine]
  simp only [bind_eq_bind, bind_some, machine]
  rw [hback, fromJulianDayNumber_eq, h.fromDayNumber_machine]

theorem fromModjulianDayNumber_machine_wraps :
    modjulianDayNumber machine ⟨1700, 1, 1⟩ = some (2 ^ 32 - 58028) ∧
      (modjulianDayNumber machine ⟨1700, 1, 1⟩ >>= fromModjulianDayNumber machine) = some ⟨1700, 1, 1⟩ :=
  ⟨by decide, Valid.fromModjulianDayNumber_machine
    ⟨by decide, by decide, by decide, by decide, by decide, by decide⟩⟩

/-- **Round trip without wrapping**, outside the first two months of year 0. -/
theorem Valid.fromDayNumber_checked (h : ymd.Valid) (hne : ¬ ymd.Early) :
    fromDayNumber checked (number ymd) = some ymd := by
  obtain ⟨-, -, hsh, -, hY'⟩ := h.march
  have h₀ := h.year_nonneg
  have h₁ := h.year_le
  have hs : 4800 ≤ ymd.marchYear ∧ 0 ≤ shift ymd.month ∧ shift ymd.month ≤ 1 := by
    unfold Early at hne
    unfold marchYear shift
    split <;> omega
  refine h.fromDayNumber_of_yearOf keeps_checked ?_
  rw [yearOf_eq keeps_checked (by omega) (by omega) (by omega) (by omega), h.year_eq_march]

/-- **The day of the week** is the number's, from Monday on day 0. -/
theorem Valid.dayOfWeek_eq {conv : Conversion} (hc : conv.Keeps) (h : ymd.Valid)
    (hne : ¬ ymd.Early) : dayOfWeek conv ymd = some ((number ymd + 1) % 7) := by
  obtain ⟨hm₀, hm₁, hsh, -, -⟩ := h.march
  have hm := h.month_pos
  have hm' := h.month_le
  have hd := h.day_pos
  have hd' := h.day_le.trans (endOfMonthDay_bounds _ _).2
  have hy := h.year_nonneg
  have hy' := h.year_le
  have hs : 0 ≤ ymd.year - shift ymd.month ∧ 0 ≤ shift ymd.month ∧ shift ymd.month ≤ 1 := by
    unfold Early at hne
    unfold shift
    split <;> omega
  have hmar : ymd.month + 12 * shift ymd.month - 2 = ymd.marchMonth + 1 := by
    unfold marchMonth
    omega
  have hnum : number ymd + 1 = daysBefore (ymd.year - shift ymd.month + 4800) +
      dayOfMarchYear ymd.marchMonth ymd.day - 32043 := by
    rw [number, ← marchMonth, show ymd.year + 4800 - shift ymd.month =
      ymd.year - shift ymd.month + 4800 by omega]
    omega
  -- the two month formulas differ by a constant modulo 7
  have hmod : (31 * (ymd.marchMonth + 1) / 12) % 7 = ((153 * ymd.marchMonth + 2) / 5 + 2) % 7 := by
    obtain ⟨m, hm⟩ : ∃ m, m = ymd.marchMonth := ⟨_, rfl⟩
    rw [← hm] at hm₀ hm₁ ⊢
    interval_cases m <;> rfl
  unfold dayOfWeek
  rw [tdiv_eq_shift hm hm', hnum, daysBefore_add_4800]
  have hy₁ : ymd.year - shift ymd.month ≤ 60735 := by omega
  refine hc.bind (holds_unsigned (by omega) (by omega)) ?_
  generalize ymd.year - shift ymd.month = y at *
  refine hc.bind (holds_unsigned (by omega) (by omega)) ?_
  rw [hmar]
  refine hc.bind (holds_unsigned (by omega) (by omega)) ?_
  refine hc.bind (holds_int (by omega) (by omega)) ?_
  refine hc.bind (holds_int (by omega) (by omega)) ?_
  refine hc.bind (holds_int (by omega) (by omega)) ?_
  rw [tmod_eq_emod_of_nonneg (by omega), hc _ _ (holds_unsigned (by omega) (by omega))]
  unfold daysBefore dayOfMarchYear
  exact congrArg some (by omega)

end YearMonthDay

/-! ### The calendar -/

/-- **The conversions are an order isomorphism**, for the valid dates of the years `0 … 60735`:
a date's number gives back the date, with no intermediate wrapping; the next day has the next
number; numbers follow the order of dates; the two inverse functions agree; and the day of the
week is the number's.  In the first two months of year 0 the round trip wraps, and back. -/
theorem calendar_order_isomorphism :
    (∀ ymd : YearMonthDay, ymd.Valid → ∃ n,
      dayNumber machine ymd = some n ∧ dayNumber checked ymd = some n ∧
      fromDayNumber machine n = some ymd ∧
      dayNumber machine ymd.next = some (n + 1) ∧
      (¬ ymd.Early → fromDayNumber checked n = some ymd ∧
        dayOfWeek machine ymd = some ((n + 1) % 7) ∧
        dayOfWeek checked ymd = some ((n + 1) % 7))) ∧
    (∀ ymd ymd' : YearMonthDay, ymd.Valid → ymd'.Valid → ymd.Before ymd' →
      ∃ n n', dayNumber machine ymd = some n ∧ dayNumber machine ymd' = some n' ∧ n < n') ∧
    ∀ n, fromJulianDayNumber machine n = fromDayNumber machine n := by
  refine ⟨fun ymd h => ⟨number ymd, h.dayNumber_eq_number keeps_machine,
    h.dayNumber_eq_number keeps_checked, h.fromDayNumber_machine, ?_, fun hne =>
      ⟨h.fromDayNumber_checked hne, h.dayOfWeek_eq keeps_machine hne,
        h.dayOfWeek_eq keeps_checked hne⟩⟩,
    fun ymd ymd' h h' hb => ⟨number ymd, number ymd', h.dayNumber_eq_number keeps_machine,
      h'.dayNumber_eq_number keeps_machine, h.number_lt h' hb⟩, fromJulianDayNumber_eq⟩
  obtain ⟨h₀, h₁, h₂, h₃, h₄⟩ := h.next_bounds
  rw [dayNumber_eq keeps_machine h₀ h₁ h₂ h₃ h₄.1 h₄.2, h.number_next]

/-- The last day of February 2000 and the day after. -/
theorem calendar_order_isomorphism_leap_day :
    (∃ n, dayNumber machine ⟨2000, 2, 29⟩ = some n ∧ dayNumber checked ⟨2000, 2, 29⟩ = some n ∧
      fromDayNumber machine n = some ⟨2000, 2, 29⟩ ∧
      dayNumber machine (YearMonthDay.next ⟨2000, 2, 29⟩) = some (n + 1) ∧
      (¬ YearMonthDay.Early ⟨2000, 2, 29⟩ → fromDayNumber checked n = some ⟨2000, 2, 29⟩ ∧
        dayOfWeek machine ⟨2000, 2, 29⟩ = some ((n + 1) % 7) ∧
        dayOfWeek checked ⟨2000, 2, 29⟩ = some ((n + 1) % 7))) ∧
    ∃ n n', dayNumber machine ⟨2000, 2, 29⟩ = some n ∧ dayNumber machine ⟨2000, 3, 1⟩ = some n' ∧
      n < n' :=
  have h₁ : YearMonthDay.Valid ⟨2000, 2, 29⟩ :=
    ⟨by decide, by decide, by decide, by decide, by decide, by decide⟩
  have h₂ : YearMonthDay.Valid ⟨2000, 3, 1⟩ :=
    ⟨by decide, by decide, by decide, by decide, by decide, by decide⟩
  ⟨calendar_order_isomorphism.1 _ h₁,
    calendar_order_isomorphism.2.1 _ _ h₁ h₂ (.inr ⟨rfl, .inl (by decide)⟩)⟩

/-- 1 January of year 0 is a Saturday, and `day_of_week` says Wednesday: it counts from the year
`65535`.  On the way back from its number `100*b + d - 4800` wraps. -/
theorem dayOfWeek_year_zero :
    YearMonthDay.Valid ⟨0, 1, 1⟩ ∧ dayNumber machine ⟨0, 1, 1⟩ = some 1721060 ∧
      (1721060 + 1) % 7 = 6 ∧ dayOfWeek machine ⟨0, 1, 1⟩ = some 3 ∧
      fromDayNumber machine 1721060 = some ⟨0, 1, 1⟩ ∧ fromDayNumber checked 1721060 = none :=
  ⟨⟨by decide, by decide, by decide, by decide, by decide, by decide⟩, by decide, by decide,
    by decide, by decide, by decide⟩

end SourceLibs.Gregorian
