import Mathlib.Tactic.Linarith
import Mathlib.Tactic.Ring

/-!
# The Gregorian calendar

Years, months and days of the proleptic Gregorian calendar, and the number of a day. Day `0` is the
first of January of year `1`, a Monday. Every day has one date (`ofDayNumber_dayNumber`,
`dayNumber_ofDayNumber`).
-/

namespace Soup.Lib.Gregorian

def isLeap (year : ℤ) : Bool := year % 4 = 0 && (year % 100 ≠ 0 || year % 400 = 0)

/-- The days of the years before `year`. -/
def daysBeforeYear (year : ℤ) : ℤ :=
  365 * (year - 1) + (year - 1) / 4 - (year - 1) / 100 + (year - 1) / 400

def monthLength (year month : ℤ) : ℤ :=
  if month = 2 then (if isLeap year then 29 else 28)
  else if month = 4 ∨ month = 6 ∨ month = 9 ∨ month = 11 then 30
  else 31

/-- The days of a year before `month`. -/
def daysBeforeMonth (leap : Bool) (month : ℤ) : ℤ :=
  (367 * month - 362) / 12 - if month ≤ 2 then 0 else if leap then 1 else 2

structure Date where
  year : ℤ
  month : ℤ
  day : ℤ
  deriving DecidableEq, Repr

structure Date.Valid (date : Date) : Prop where
  one_le_month : 1 ≤ date.month
  month_le : date.month ≤ 12
  one_le_day : 1 ≤ date.day
  day_le : date.day ≤ monthLength date.year date.month

/-- The number of a day. Months that overflow are carried to the year, and days to the month. -/
def dayNumber (date : Date) : ℤ :=
  let year := date.year + (date.month - 1) / 12
  daysBeforeYear year + daysBeforeMonth (isLeap year) ((date.month - 1) % 12 + 1) + (date.day - 1)

/-- The year of a day: the mean length of years gives it up to one year. -/
def yearOf (n : ℤ) : ℤ :=
  let year := 400 * n / 146097 + 1
  if n < daysBeforeYear year then year - 1
  else if daysBeforeYear (year + 1) ≤ n then year + 1
  else year

/-- The month of the day of a year. -/
def monthOf (leap : Bool) (dayOfYear : ℤ) : ℤ :=
  let shift := if leap then (if dayOfYear < 60 then 0 else 1) else if dayOfYear < 59 then 0 else 2
  (12 * (dayOfYear + shift) + 373) / 367

def ofDayNumber (n : ℤ) : Date :=
  let year := yearOf n
  let dayOfYear := n - daysBeforeYear year
  let month := monthOf (isLeap year) dayOfYear
  ⟨year, month, dayOfYear - daysBeforeMonth (isLeap year) month + 1⟩

/-- From Sunday, which is `0`. -/
def weekday (n : ℤ) : ℤ := (n + 1) % 7

/-! ## Years -/

def yearLength (year : ℤ) : ℤ := if isLeap year then 366 else 365

variable (year : ℤ)

theorem isLeap_iff : isLeap year = true ↔ year % 4 = 0 ∧ (year % 100 ≠ 0 ∨ year % 400 = 0) := by
  rw [isLeap, Bool.and_eq_true, Bool.or_eq_true, decide_eq_true_iff, decide_eq_true_iff,
    decide_eq_true_iff]

theorem daysBeforeYear_succ :
    daysBeforeYear (year + 1) = daysBeforeYear year + yearLength year := by
  have h := isLeap_iff year
  rw [daysBeforeYear, daysBeforeYear, yearLength]
  split
  next hleap =>
    have := h.1 hleap
    omega
  next hleap =>
    have : ¬(year % 4 = 0 ∧ (year % 100 ≠ 0 ∨ year % 400 = 0)) := fun hyear => hleap (h.2 hyear)
    omega

variable {a b : ℤ}

theorem daysBeforeYear_lt (h : a < b) : daysBeforeYear a < daysBeforeYear b := by
  rw [daysBeforeYear, daysBeforeYear]
  omega

theorem daysBeforeYear_le (h : a ≤ b) : daysBeforeYear a ≤ daysBeforeYear b := by
  rcases h.eq_or_lt with rfl | hlt
  · exact le_rfl
  · exact (daysBeforeYear_lt hlt).le

theorem yearOf_spec (n : ℤ) :
    daysBeforeYear (yearOf n) ≤ n ∧ n < daysBeforeYear (yearOf n + 1) := by
  rw [yearOf]
  split
  next hlt =>
    refine ⟨?_, by rwa [sub_add_cancel]⟩
    rw [daysBeforeYear]
    omega
  next hge =>
    split
    next hle =>
      refine ⟨hle, ?_⟩
      rw [daysBeforeYear]
      omega
    next hlt =>
      exact ⟨not_lt.1 hge, not_le.1 hlt⟩

theorem yearOf_eq {n year : ℤ} (hle : daysBeforeYear year ≤ n)
    (hlt : n < daysBeforeYear (year + 1)) : yearOf n = year := by
  obtain ⟨hle', hlt'⟩ := yearOf_spec n
  rcases lt_trichotomy (yearOf n) year with h | h | h
  · have := daysBeforeYear_le (show yearOf n + 1 ≤ year from h)
    omega
  · exact h
  · have := daysBeforeYear_le (show year + 1 ≤ yearOf n from h)
    omega

/-! ## Months -/

theorem daysBeforeMonth_one (leap : Bool) : daysBeforeMonth leap 1 = 0 := by
  cases leap <;> decide

theorem daysBeforeMonth_thirteen : daysBeforeMonth (isLeap year) 13 = yearLength year := by
  rw [yearLength]
  cases isLeap year <;> decide

theorem daysBeforeMonth_succ {year month : ℤ} (h1 : 1 ≤ month) (h12 : month ≤ 12) :
    daysBeforeMonth (isLeap year) (month + 1) =
      daysBeforeMonth (isLeap year) month + monthLength year month := by
  rw [monthLength]
  have hmonths : month = 1 ∨ month = 2 ∨ month = 3 ∨ month = 4 ∨ month = 5 ∨ month = 6 ∨ month = 7 ∨
      month = 8 ∨ month = 9 ∨ month = 10 ∨ month = 11 ∨ month = 12 := by omega
  rcases hmonths with rfl | rfl | rfl | rfl | rfl | rfl | rfl | rfl | rfl | rfl | rfl | rfl <;>
    cases isLeap year <;> decide

theorem monthOf_spec {leap : Bool} {d : ℤ} (h0 : 0 ≤ d) (hlt : d < daysBeforeMonth leap 13) :
    1 ≤ monthOf leap d ∧ monthOf leap d ≤ 12 ∧ daysBeforeMonth leap (monthOf leap d) ≤ d ∧
      d < daysBeforeMonth leap (monthOf leap d + 1) := by
  have hall : ∀ leap : Bool, ∀ n : ℕ, n < 366 → (n : ℤ) < daysBeforeMonth leap 13 →
      1 ≤ monthOf leap n ∧ monthOf leap n ≤ 12 ∧ daysBeforeMonth leap (monthOf leap n) ≤ n ∧
        (n : ℤ) < daysBeforeMonth leap (monthOf leap n + 1) := by
    decide +kernel
  obtain ⟨n, rfl⟩ := Int.eq_ofNat_of_zero_le h0
  have hyear : daysBeforeMonth leap 13 ≤ 366 := by cases leap <;> decide
  exact hall leap n (by omega) hlt

theorem daysBeforeMonth_le (leap : Bool) (h : a ≤ b) :
    daysBeforeMonth leap a ≤ daysBeforeMonth leap b := by
  rw [daysBeforeMonth, daysBeforeMonth]
  cases leap
  · rw [if_neg Bool.false_ne_true]
    split <;> split <;> omega
  · rw [if_pos rfl]
    split <;> split <;> omega

theorem monthOf_eq {leap : Bool} {d month : ℤ} (h1 : 1 ≤ month) (h12 : month ≤ 12)
    (hle : daysBeforeMonth leap month ≤ d) (hlt : d < daysBeforeMonth leap (month + 1)) :
    monthOf leap d = month := by
  have h0 : 0 ≤ d := (daysBeforeMonth_one leap).symm.le.trans ((daysBeforeMonth_le _ h1).trans hle)
  have hyear : d < daysBeforeMonth leap 13 := hlt.trans_le (daysBeforeMonth_le _ (by omega))
  obtain ⟨-, -, hle', hlt'⟩ := monthOf_spec h0 hyear
  rcases lt_trichotomy (monthOf leap d) month with h | h | h
  · have := daysBeforeMonth_le leap (show monthOf leap d + 1 ≤ month from h)
    omega
  · exact h
  · have := daysBeforeMonth_le leap (show month + 1 ≤ monthOf leap d from h)
    omega

/-! ## Dates -/

theorem dayNumber_eq {year month day : ℤ} (h1 : 1 ≤ month) (h12 : month ≤ 12) :
    dayNumber ⟨year, month, day⟩ =
      daysBeforeYear year + daysBeforeMonth (isLeap year) month + (day - 1) := by
  have hyear : year + (month - 1) / 12 = year := by omega
  have hmonth : (month - 1) % 12 + 1 = month := by omega
  rw [dayNumber]
  rw [hyear, hmonth]

/-- The first day of the month after `month`. -/
theorem dayNumber_next_month {year month : ℤ} (h1 : 1 ≤ month) (h12 : month ≤ 12) :
    dayNumber ⟨year, month + 1, 1⟩ =
      daysBeforeYear year + daysBeforeMonth (isLeap year) (month + 1) := by
  rcases h12.eq_or_lt with rfl | hlt
  · have hyear : year + (12 + 1 - 1) / 12 = year + 1 := by omega
    rw [dayNumber]
    rw [hyear, show ((12 : ℤ) + 1 - 1) % 12 + 1 = 1 from rfl, daysBeforeMonth_one,
      daysBeforeYear_succ,
      show (12 : ℤ) + 1 = 13 from rfl, daysBeforeMonth_thirteen]
    ring
  · rw [dayNumber_eq (by omega) (by omega)]
    ring

theorem dayNumber_next_day (year month day : ℤ) :
    dayNumber ⟨year, month, day + 1⟩ = dayNumber ⟨year, month, day⟩ + 1 := by
  rw [dayNumber, dayNumber]
  ring

theorem ofDayNumber_spec (n : ℤ) : (ofDayNumber n).Valid ∧ dayNumber (ofDayNumber n) = n := by
  obtain ⟨hle, hlt⟩ := yearOf_spec n
  rw [daysBeforeYear_succ, ← daysBeforeMonth_thirteen] at hlt
  obtain ⟨h1, h12, hmonth, hmonth'⟩ := monthOf_spec (sub_nonneg.2 hle) (sub_lt_iff_lt_add'.2 hlt)
  rw [daysBeforeMonth_succ h1 h12] at hmonth'
  refine ⟨⟨h1, h12, ?_, ?_⟩, ?_⟩
  · exact le_add_of_nonneg_left (sub_nonneg.2 hmonth)
  · exact Int.add_one_le_iff.2 (sub_lt_iff_lt_add'.2 hmonth')
  · rw [ofDayNumber, dayNumber_eq h1 h12]
    ring

theorem ofDayNumber_valid (n : ℤ) : (ofDayNumber n).Valid := (ofDayNumber_spec n).1

theorem dayNumber_ofDayNumber (n : ℤ) : dayNumber (ofDayNumber n) = n := (ofDayNumber_spec n).2

theorem daysBeforeMonth_bounds {month : ℤ} (h1 : 1 ≤ month) (h12 : month ≤ 12) :
    0 ≤ daysBeforeMonth (isLeap year) month ∧ daysBeforeMonth (isLeap year)
      (month + 1) ≤ yearLength year :=
  ⟨(daysBeforeMonth_one _).symm.le.trans (daysBeforeMonth_le _ h1),
    (daysBeforeMonth_le _ (by omega)).trans (daysBeforeMonth_thirteen year).le⟩

/-- The year and the month of a day between the first days of two months. -/
theorem ofDayNumber_month {year month n : ℤ} (h1 : 1 ≤ month) (h12 : month ≤ 12)
    (hle : dayNumber ⟨year, month, 1⟩ ≤ n) (hlt : n < dayNumber ⟨year, month + 1, 1⟩) :
    ofDayNumber n = ⟨year, month, n - dayNumber ⟨year, month, 1⟩ + 1⟩ := by
  rw [dayNumber_eq h1 h12] at hle
  rw [dayNumber_next_month h1 h12] at hlt
  obtain ⟨hfirst, hlast⟩ := daysBeforeMonth_bounds year h1 h12
  have hyear : yearOf n = year := yearOf_eq (by omega) (by rw [daysBeforeYear_succ]; omega)
  have hmonth : monthOf (isLeap year) (n - daysBeforeYear year) = month :=
    monthOf_eq h1 h12 (by omega) (by omega)
  rw [ofDayNumber, hyear, hmonth, dayNumber_eq h1 h12]
  exact congrArg (Date.mk year month) (by ring)

/-- A date is in its month, and its month in its year. -/
theorem Date.Valid.bounds {year month day : ℤ} (h : (⟨year, month, day⟩ : Date).Valid) :
    daysBeforeYear year ≤ dayNumber ⟨year, month, 1⟩ ∧
      dayNumber ⟨year, month, 1⟩ ≤ dayNumber ⟨year, month, day⟩ ∧
      dayNumber ⟨year, month, day⟩ < dayNumber ⟨year, month + 1, 1⟩ ∧
      dayNumber ⟨year, month + 1, 1⟩ ≤ daysBeforeYear (year + 1) := by
  have h1 : 1 ≤ month := h.one_le_month
  have h12 : month ≤ 12 := h.month_le
  have hday : 1 ≤ day := h.one_le_day
  have hlast : day ≤ monthLength year month := h.day_le
  obtain ⟨hfirst, hyear⟩ := daysBeforeMonth_bounds year h1 h12
  have hsucc : daysBeforeMonth (isLeap year) (month + 1) = _ := daysBeforeMonth_succ h1 h12
  rw [dayNumber_eq h1 h12, dayNumber_eq h1 h12, dayNumber_next_month h1 h12, daysBeforeYear_succ]
  omega

theorem ofDayNumber_dayNumber {date : Date} (h : date.Valid) :
    ofDayNumber (dayNumber date) = date := by
  obtain ⟨year, month, day⟩ := date
  have h1 : 1 ≤ month := h.one_le_month
  have h12 : month ≤ 12 := h.month_le
  obtain ⟨-, hle, hlt, -⟩ := h.bounds
  have hday : dayNumber ⟨year, month, day⟩ - dayNumber ⟨year, month, 1⟩ + 1 = day := by
    rw [dayNumber_eq h1 h12, dayNumber_eq h1 h12]
    ring
  rw [ofDayNumber_month h1 h12 hle hlt, hday]

/-! ## Later dates -/

/-- Of the eight years after a year one is a leap year. -/
theorem exists_isLeap : ∃ later, year < later ∧ later ≤ year + 8 ∧ isLeap later = true := by
  have hfour : year < 4 * (year / 4 + 1) ∧ 4 * (year / 4 + 1) ≤ year + 4 := by omega
  by_cases h : 4 * (year / 4 + 1) % 100 = 0
  · exact ⟨4 * (year / 4 + 1) + 4, by omega, by omega, (isLeap_iff _).2 (by omega)⟩
  · exact ⟨4 * (year / 4 + 1), by omega, by omega, (isLeap_iff _).2 (by omega)⟩

theorem monthLength_le {later : ℤ} (h : isLeap later = true) (year month : ℤ) :
    monthLength year month ≤ monthLength later month := by
  rw [monthLength, monthLength, if_pos h]
  split
  · split <;> decide
  · exact le_rfl

/-- A date comes again within eight years. -/
theorem exists_valid {date : Date} (h : date.Valid) (year : ℤ) :
    ∃ later, year < later ∧ later ≤ year + 8 ∧ (⟨later, date.month, date.day⟩ : Date).Valid := by
  obtain ⟨later, hlt, hle, hleap⟩ := exists_isLeap year
  exact ⟨later, hlt, hle, h.one_le_month, h.month_le, h.one_le_day,
    h.day_le.trans (monthLength_le hleap _ _)⟩

theorem seven_le_monthLength (year month : ℤ) : 7 ≤ monthLength year month := by
  rw [monthLength]
  split
  · split <;> decide
  · split <;> decide

/-- The first seven days of a month are of all weekdays. -/
theorem exists_weekday {month w : ℤ} (h1 : 1 ≤ month) (h12 : month ≤ 12) (hw : 0 ≤ w ∧ w < 7)
    (year : ℤ) :
    ∃ day, (⟨year, month, day⟩ : Date).Valid ∧ weekday (dayNumber ⟨year, month, day⟩) = w := by
  have hlength := seven_le_monthLength year month
  refine ⟨(w - dayNumber ⟨year, month, 0⟩ - 2) % 7 + 1, ⟨h1, h12, ?_, ?_⟩, ?_⟩
  · show 1 ≤ (w - dayNumber ⟨year, month, 0⟩ - 2) % 7 + 1
    omega
  · show (w - dayNumber ⟨year, month, 0⟩ - 2) % 7 + 1 ≤ monthLength year month
    omega
  · have hday : ∀ day, dayNumber ⟨year, month, day⟩ = dayNumber ⟨year, month, 0⟩ + day :=
      fun day => by
      rw [dayNumber_eq h1 h12, dayNumber_eq h1 h12]
      ring
    rw [hday, weekday]
    omega

end Soup.Lib.Gregorian
