import SourceLibs.Gregorian.Calendar

/-!
# Gregorian — the week number

`week_number` of `date_time/gregorian_calendar.ipp`.  A week runs from Monday to Sunday and belongs to
the year its Thursday is in; it is the week of that year the Thursday is in.  Day numbers are 0 modulo
7 on a Monday.

The routine guesses the week from the weekday of 1 January and corrects a guess of 53 or 0.

* `IsDate.exists_number`: every number from a date's on is a date's.
* `firstOfYear_succ`, `IsDate.year_eq`: the years as intervals of numbers.
* `weekNumber_iso`: the week number is that of ISO 8601.
-/

namespace SourceLibs.Gregorian
open Option YearMonthDay

/-- The variables `day` and `week`, counted from 1 January of `year`; `week_number` has these lines
twice. -/
def dayAndWeek (conv : Conversion) (year : ℤ) (ymd : YearMonthDay) : Option (ℤ × ℤ) := do
  let julianbegin ← julianDayNumber conv ⟨year, 1, 1⟩
  let julianbegin ← conv ulong julianbegin
  let juliantoday ← julianDayNumber conv ymd
  let juliantoday ← conv ulong juliantoday
  let t ← conv ulong (julianbegin + 3)
  let day := t % 7
  let t ← conv ulong (juliantoday + day)
  let t ← conv ulong (t - julianbegin)
  let t ← conv ulong (t + 4)
  some (day, t / 7)

def weekNumber (conv : Conversion) (ymd : YearMonthDay) : Option ℤ := do
  let (day, week) ← dayAndWeek conv ymd.year ymd
  if 1 ≤ week ∧ week ≤ 52 then conv .int week
  else if week = 53 then
    if day = 6 ∨ day = 5 ∧ isLeapYear ymd.year = true then conv .int week else some 1
  else if week = 0 then do
    let year ← conv ushort (ymd.year - 1)
    let (_, week) ← dayAndWeek conv year ymd
    conv .int week
  else conv .int week

/-! ### Weeks and years -/

/-- The number of 1 January. -/
def firstOfYear (y : ℤ) : ℤ := number ⟨y, 1, 1⟩

theorem firstOfYear_eq (y : ℤ) : firstOfYear y = firstOfMonth (12 * y) := by
  rw [firstOfMonth, show 12 * y / 12 = y by omega, show 12 * y % 12 + 1 = 1 by omega, firstOfYear]

/-- **A year** has 365 or 366 days. -/
theorem firstOfYear_succ (y : ℤ) :
    firstOfYear (y + 1) = firstOfYear y + 365 + if isLeapYear y then 1 else 0 := by
  have h := daysBefore_succ (y + 4799)
  rw [show y + 4799 + 1 = y + 4800 by omega, isLeapYear_add_4800] at h
  have e : ∀ z, firstOfYear z = daysBefore (z + 4799) + 306 - 32044 := fun z => by
    simp only [firstOfYear, number, shift, dayOfMarchYear]
    norm_num
    rw [show z + 4800 - 1 = z + 4799 by omega]
  rw [e, e, show y + 1 + 4799 = y + 4800 by omega, h]
  omega

namespace YearMonthDay
variable {ymd : YearMonthDay}

/-- The day of the week, 0 for Monday. -/
def weekday (ymd : YearMonthDay) : ℤ := number ymd % 7

/-- The day of the year, from 1. -/
def ordinal (ymd : YearMonthDay) : ℤ := number ymd - firstOfYear ymd.year + 1

/-- `thursday` is the Thursday of the week of `ymd`. -/
structure IsThursdayOf (thursday ymd : YearMonthDay) : Prop where
  isDate : thursday.IsDate
  weekday_eq : thursday.weekday = 3
  same_week : number ymd - ymd.weekday ≤ number thursday ∧
    number thursday ≤ number ymd - ymd.weekday + 6

theorem IsDate.bounds (h : ymd.IsDate) :
    firstOfYear ymd.year ≤ number ymd ∧ number ymd < firstOfYear (ymd.year + 1) := by
  have hm := h.month_pos
  have hm' := h.month_le
  have hd := h.day_pos
  have h₁ := firstOfMonth_le (j := 12 * ymd.year) (k := ymd.monthIndex) (by unfold monthIndex; omega)
  have h₂ := firstOfMonth_le (j := ymd.monthIndex + 1) (k := 12 * (ymd.year + 1))
    (by unfold monthIndex; omega)
  have h₃ := h.number_lt_firstOfMonth
  have h₄ := number_eq_firstOfMonth hm hm'
  rw [firstOfYear_eq, firstOfYear_eq]
  omega

theorem firstOfYear_le {y z : ℤ} (h : y ≤ z) : firstOfYear y ≤ firstOfYear z := by
  rw [firstOfYear_eq, firstOfYear_eq]
  exact firstOfMonth_le (by omega)

theorem IsDate.year_eq (h : ymd.IsDate) {y : ℤ} (h₁ : firstOfYear y ≤ number ymd)
    (h₂ : number ymd < firstOfYear (y + 1)) : ymd.year = y := by
  obtain ⟨hb, hb'⟩ := h.bounds
  rcases lt_trichotomy ymd.year y with hlt | heq | hgt
  · have := firstOfYear_le (Int.add_one_le_of_lt hlt)
    omega
  · exact heq
  · have := firstOfYear_le (Int.add_one_le_of_lt hgt)
    omega

/-- **Every number** from a date's on is a date's. -/
theorem IsDate.exists_number (h : ymd.IsDate) (n : ℕ) :
    ∃ d : YearMonthDay, d.IsDate ∧ number d = number ymd + n := by
  induction n with
  | zero => exact ⟨ymd, h, by omega⟩
  | succ n ih =>
    obtain ⟨d, hd, hn⟩ := ih
    exact ⟨d.next, hd.next, by rw [hd.number_next, hn]; omega⟩

theorem isDate_firstOfYear (y : ℤ) : IsDate ⟨y, 1, 1⟩ := by
  have := (endOfMonthDay_bounds y 1).1
  exact ⟨le_rfl, by simp only; omega, le_rfl, by simp only; omega⟩

/-- **Every week** has a Thursday. -/
theorem IsDate.exists_thursday (h : ymd.IsDate) : ∃ thursday, IsThursdayOf thursday ymd := by
  have hb := h.bounds.1
  have hy := firstOfYear_succ (ymd.year - 1)
  rw [Int.sub_add_cancel] at hy
  have hpos : firstOfYear (ymd.year - 1) ≤ number ymd - number ymd % 7 + 3 := by
    split at hy <;> omega
  obtain ⟨d, hd, hn⟩ := (isDate_firstOfYear (ymd.year - 1)).exists_number
    (number ymd - number ymd % 7 + 3 - firstOfYear (ymd.year - 1)).toNat
  rw [show number ⟨ymd.year - 1, 1, 1⟩ = firstOfYear (ymd.year - 1) from rfl] at hn
  exact ⟨d, hd, by unfold weekday; omega, by unfold weekday; omega, by unfold weekday; omega⟩

end YearMonthDay

/-! ### The week -/

/-- The guess: weeks from the Monday on or before 1 January, the first one counted if its Thursday
is in the year. -/
def guess (first today : ℤ) : ℤ := (today + (first + 3) % 7 - first + 4) / 7

/-- **The guess** counts the Thursdays of the year. -/
theorem guess_eq (first today : ℤ) :
    guess first today = (today - today % 7 + 3 - first) / 7 + 1 := by
  unfold guess
  omega

theorem number_bounds {ymd : YearMonthDay} (hy : 0 ≤ ymd.year) (hy' : ymd.year ≤ 60735)
    (h : ymd.IsDate) : 0 ≤ number ymd ∧ number ymd < 2 ^ 31 := by
  have hm := h.month_pos
  have hm' := h.month_le
  have hd := h.day_pos
  have hd' := (endOfMonthDay_bounds ymd.year ymd.month).2
  have hle := h.day_le
  unfold number daysBefore dayOfMarchYear shift
  split <;> omega

/-- **The two variables**, and nothing wraps. -/
theorem dayAndWeek_eq {conv : Conversion} (hc : conv.Keeps) {y : ℤ} {ymd : YearMonthDay} (hy : 0 ≤ y)
    (hy' : y ≤ ymd.year) (h : ymd.Valid) : dayAndWeek conv y ymd =
      some ((firstOfYear y + 3) % 7, guess (firstOfYear y) (number ymd)) := by
  have hyear := h.year_le
  obtain ⟨b₀, b₁⟩ := number_bounds hy (by simp only; omega) (isDate_firstOfYear y)
  obtain ⟨c₀, c₁⟩ := number_bounds (by omega) hyear h.isDate
  have hle := h.isDate.bounds.1
  have hfirst := firstOfYear_le hy'
  have hbegin : julianDayNumber conv ⟨y, 1, 1⟩ = some (firstOfYear y) :=
    dayNumber_eq hc hy (by simp only [shift]; norm_num; omega) le_rfl (by simp only; omega)
      le_rfl (by simp only; omega)
  have htoday : julianDayNumber conv ymd = some (number ymd) := h.dayNumber_eq_number hc
  rw [show number ⟨y, 1, 1⟩ = firstOfYear y from rfl] at b₀ b₁
  unfold dayAndWeek guess
  rw [hbegin, htoday]
  simp only [bind_eq_bind, bind_some]
  refine hc.bind (holds_unsigned b₀ (by omega)) ?_
  refine hc.bind (holds_unsigned c₀ (by omega)) ?_
  refine hc.bind (holds_unsigned (by omega) (by omega)) ?_
  refine hc.bind (holds_unsigned (by omega) (by omega)) ?_
  refine hc.bind (holds_unsigned (by omega) (by omega)) ?_
  refine hc.bind (holds_unsigned (by omega) (by omega)) ?_
  rfl

theorem YearMonthDay.IsThursdayOf.number_eq {thursday ymd : YearMonthDay}
    (h : IsThursdayOf thursday ymd) : number thursday = number ymd - number ymd % 7 + 3 := by
  have hw := h.weekday_eq
  have hs := h.same_week
  unfold weekday at hw hs
  omega

section Cases
variable {conv : Conversion} {ymd thursday : YearMonthDay}

/-- The Thursday is in the year before: the guess is 0, and made again from that year. -/
theorem weekNumber_before (hc : conv.Keeps) (h : ymd.Valid) (hy : 1 ≤ ymd.year)
    (hth : IsThursdayOf thursday ymd) (hlt : number thursday < firstOfYear ymd.year) :
    weekNumber conv ymd = some ((thursday.ordinal - 1) / 7 + 1) := by
  have hb := h.isDate.bounds
  have hn := hth.number_eq
  have hbefore := firstOfYear_succ (ymd.year - 1)
  rw [Int.sub_add_cancel] at hbefore
  have hyear : thursday.year = ymd.year - 1 :=
    hth.isDate.year_eq (by split at hbefore <;> omega) (by rw [Int.sub_add_cancel]; exact hlt)
  have hg := guess_eq (firstOfYear ymd.year) (number ymd)
  have hg' := guess_eq (firstOfYear (ymd.year - 1)) (number ymd)
  rw [← hn] at hg hg'
  unfold weekNumber ordinal
  rw [dayAndWeek_eq hc (by omega) le_rfl h]
  simp only [bind_eq_bind, bind_some]
  rw [if_neg (by omega), if_neg (by omega), if_pos (by omega), hyear]
  refine hc.bind (holds_unsigned (by omega) (by have := h.year_le; omega)) ?_
  rw [dayAndWeek_eq hc (by omega) (by omega) h, bind_some]
  have hrange : 0 ≤ guess (firstOfYear (ymd.year - 1)) (number ymd) ∧
      guess (firstOfYear (ymd.year - 1)) (number ymd) < 2 ^ 31 := by
    split at hbefore <;> omega
  rw [hc _ _ (holds_int hrange.1 hrange.2), hg']
  exact congrArg some (by omega)

/-- The Thursday is in the year of the date: the guess stands. -/
theorem weekNumber_within (hc : conv.Keeps) (h : ymd.Valid) (hy : 1 ≤ ymd.year)
    (hth : IsThursdayOf thursday ymd) (hge : firstOfYear ymd.year ≤ number thursday)
    (hlt : number thursday < firstOfYear (ymd.year + 1)) :
    weekNumber conv ymd = some ((thursday.ordinal - 1) / 7 + 1) := by
  have hb := h.isDate.bounds
  have hn := hth.number_eq
  have hnow := firstOfYear_succ ymd.year
  have hyear : thursday.year = ymd.year := hth.isDate.year_eq hge hlt
  have hg := guess_eq (firstOfYear ymd.year) (number ymd)
  rw [← hn] at hg
  have hint : conv .int (guess (firstOfYear ymd.year) (number ymd)) =
      some ((number thursday - firstOfYear thursday.year + 1 - 1) / 7 + 1) := by
    rw [hc _ _ (holds_int (by omega) (by split at hnow <;> omega)), hg, hyear]
    exact congrArg some (by omega)
  unfold weekNumber ordinal
  rw [dayAndWeek_eq hc (by omega) le_rfl h]
  simp only [bind_eq_bind, bind_some]
  by_cases h52 : guess (firstOfYear ymd.year) (number ymd) ≤ 52
  · rw [if_pos (by omega)]
    exact hint
  · -- the 53rd Thursday is the 365th or the 366th day
    rw [if_neg (by omega), if_pos (by split at hnow <;> omega), if_pos]
    · exact hint
    · split at hnow
      · rename_i hleap
        simp only [hleap, and_true]
        omega
      · omega

theorem weekNumber_after (hc : conv.Keeps) (h : ymd.Valid) (hy : 1 ≤ ymd.year)
    (hth : IsThursdayOf thursday ymd) (hge : firstOfYear (ymd.year + 1) ≤ number thursday) :
    weekNumber conv ymd = some ((thursday.ordinal - 1) / 7 + 1) := by
  have hb := h.isDate.bounds
  have hn := hth.number_eq
  have hnow := firstOfYear_succ ymd.year
  have hyear : thursday.year = ymd.year + 1 := by
    refine hth.isDate.year_eq hge ?_
    have := firstOfYear_succ (ymd.year + 1)
    split at this <;> omega
  have hg := guess_eq (firstOfYear ymd.year) (number ymd)
  rw [← hn] at hg
  unfold weekNumber ordinal
  rw [dayAndWeek_eq hc (by omega) le_rfl h]
  simp only [bind_eq_bind, bind_some]
  rw [if_neg (by split at hnow <;> omega), if_pos (by split at hnow <;> omega), if_neg, hyear]
  · exact congrArg some (by omega)
  · rintro (h₆ | ⟨h₅, hleap⟩)
    · split at hnow <;> omega
    · rw [if_pos hleap] at hnow
      omega

end Cases

/-- **`week_number` is the week of ISO 8601**, for the valid dates of the years `1 … 60735` and with
no intermediate wrapping: it is the number, within the year of the Thursday of the week, of the
seven days that Thursday is in. -/
theorem weekNumber_iso {ymd : YearMonthDay} (h : ymd.Valid) (hy : 1 ≤ ymd.year) :
    (∃ thursday, IsThursdayOf thursday ymd) ∧
      ∀ thursday, IsThursdayOf thursday ymd →
        weekNumber machine ymd = some ((thursday.ordinal - 1) / 7 + 1) ∧
          weekNumber checked ymd = some ((thursday.ordinal - 1) / 7 + 1) := by
  refine ⟨h.isDate.exists_thursday, fun th hth => ?_⟩
  suffices hrun : ∀ conv : Conversion, conv.Keeps →
      weekNumber conv ymd = some ((th.ordinal - 1) / 7 + 1) from
    ⟨hrun _ keeps_machine, hrun _ keeps_checked⟩
  intro conv hc
  -- the year the Thursday is in
  rcases lt_or_ge (number th) (firstOfYear ymd.year) with hlt | hge
  · exact weekNumber_before hc h hy hth hlt
  · rcases lt_or_ge (number th) (firstOfYear (ymd.year + 1)) with hin | hafter
    · exact weekNumber_within hc h hy hth hge hin
    · exact weekNumber_after hc h hy hth hafter

/-- 1 January 2016 is a Friday: the week is the 53rd of 2015. -/
theorem weekNumber_iso_january :
    weekNumber machine ⟨2016, 1, 1⟩ = some 53 ∧ weekNumber checked ⟨2016, 1, 1⟩ = some 53 := by
  have h : YearMonthDay.Valid ⟨2016, 1, 1⟩ :=
    ⟨by decide, by decide, by decide, by decide, by decide, by decide⟩
  have hth : IsThursdayOf ⟨2015, 12, 31⟩ ⟨2016, 1, 1⟩ :=
    ⟨⟨by decide, by decide, by decide, by decide⟩, by decide, by decide, by decide⟩
  have := (weekNumber_iso h (by decide)).2 _ hth
  rwa [show (ordinal ⟨2015, 12, 31⟩ - 1) / 7 + 1 = 53 by decide] at this

end SourceLibs.Gregorian
