import Soup.Cron.Expression
import Soup.Lib.Run

/-!
# The next time is the least match

The loop of `next` goes up through the minutes, which are numbered from the first one of day `0`
(`minuteNumber`). What it passes over does not match (`checkFields_spec`), and what it leaves out
after eight years has a match before it, or none at all (`exists_matchesMinute`).
-/

namespace Soup.Cron

open Lib.Gregorian CronExpression Option List Nat

/-- The whole minutes of `Date`'s range after `fromMs` that match. -/
def matching (e : CronExpression) (tz : Zone) (fromMs : ℤ) : Set ℤ :=
  {ms | fromMs < ms ∧ ms ≤ maxEcmascriptTime ∧ minuteMs ∣ ms + tz.offset ∧
    e.matchesInstant tz ms = true}

/-- The number of a minute of a date. -/
def minuteNumber (dt : GregorianDateTime) : ℤ :=
  dayNumber ⟨dt.year, dt.month, dt.day⟩ * 1440 + dt.hour * 60 + dt.minute

def instant (tz : Zone) (n : ℤ) : ℤ := (n - epochDay * 1440) * minuteMs - tz.offset

def matchesMinute (e : CronExpression) (n : ℤ) : Bool :=
  bitSet e.minutes (n % 60) && bitSet e.hours (n / 60 % 24) &&
    bitSet e.months (ofDayNumber (n / 1440)).month &&
    e.matchesDay (ofDayNumber (n / 1440)).day (weekday (n / 1440))

/-- The number of the minute of a time. -/
def minuteOf (tz : Zone) (ms : ℤ) : ℤ := (ms + tz.offset) / minuteMs + epochDay * 1440

/-- A date and a time of day that are normalized. -/
structure Normal (dt : GregorianDateTime) (n : ℤ) : Prop where
  date : ofDayNumber (n / 1440) = ⟨dt.year, dt.month, dt.day⟩
  weekday : weekday (n / 1440) = dt.weekday
  hour : n / 60 % 24 = dt.hour
  minute : n % 60 = dt.minute

/-! ## Minutes -/

section Minutes

variable {e : CronExpression} {tz : Zone} {dt : GregorianDateTime} {n ms : ℤ}

theorem instant_lt_iff {m : ℤ} : instant tz n < instant tz m ↔ n < m := by
  rw [instant, instant, minuteMs]
  omega

/-- The fields of a time. -/
theorem normal_msToGregorian (tz : Zone) (ms : ℤ) :
    Normal (tz.msToGregorian ms) (minuteOf tz ms) := by
  rw [Zone.msToGregorian, msToGregorianDateTimeUtc, minuteOf, minuteMs, dayMs]
  generalize ms + tz.offset = time
  have hday : (time / 60000 + epochDay * 1440) / 1440 = time / 86400000 + epochDay := by omega
  constructor
  · rw [hday]
  · rw [hday]
  · dsimp only
    omega
  · dsimp only
    omega

theorem Normal.minuteNumber (h : Normal dt n) : minuteNumber dt = n := by
  have hhour := h.hour
  have hminute := h.minute
  rw [Cron.minuteNumber, ← h.date, dayNumber_ofDayNumber]
  omega

theorem minuteOf_instant (tz : Zone) (n : ℤ) : minuteOf tz (instant tz n) = n := by
  rw [minuteOf, instant, minuteMs]
  omega

theorem instant_minuteOf (h : minuteMs ∣ ms + tz.offset) : instant tz (minuteOf tz ms) = ms := by
  rw [minuteOf, instant]
  rw [minuteMs] at h ⊢
  omega

theorem lt_instant_iff : ms < instant tz n ↔ minuteOf tz ms < n := by
  rw [minuteOf, instant, minuteMs]
  omega

theorem Normal.matches (h : Normal dt n) : matchesMinute e n =
    (bitSet e.minutes dt.minute && bitSet e.hours dt.hour && bitSet e.months dt.month &&
      e.matchesDay dt.day dt.weekday) := by
  rw [matchesMinute, h.date, h.weekday, h.hour, h.minute]

theorem matchesInstant_eq (e : CronExpression) (tz : Zone) (ms : ℤ) :
    e.matchesInstant tz ms = matchesMinute e (minuteOf tz ms) :=
  (normal_msToGregorian tz ms).matches.symm

/-- The times that match are those of the minutes that match. -/
theorem mem_matching {fromMs : ℤ} : ms ∈ matching e tz fromMs ↔ ∃ n, ms = instant tz n ∧
    minuteOf tz fromMs < n ∧ instant tz n ≤ maxEcmascriptTime ∧ matchesMinute e n = true := by
  constructor
  · rintro ⟨hlt, hle, hdvd, hmatch⟩
    have hms := instant_minuteOf hdvd
    refine ⟨minuteOf tz ms, hms.symm, ?_, hms.symm ▸ hle, matchesInstant_eq e tz ms ▸ hmatch⟩
    rw [← lt_instant_iff, hms]
    exact hlt
  · rintro ⟨n, rfl, hlt, hle, hmatch⟩
    refine ⟨lt_instant_iff.2 hlt, hle, ?_, ?_⟩
    · rw [instant, sub_add_cancel]
      exact Dvd.intro_left _ rfl
    · rw [matchesInstant_eq, minuteOf_instant]
      exact hmatch

/-- The minute of a time of day. -/
theorem gregorianDateTimeToMsUtc_eq (dt : GregorianDateTime) :
    gregorianDateTimeToMsUtc dt.year dt.month dt.day dt.hour dt.minute 0 0 =
      (Cron.minuteNumber dt - epochDay * 1440) * minuteMs := by
  rw [gregorianDateTimeToMsUtc, Cron.minuteNumber, minuteMs, dayMs]
  omega

end Minutes

/-! ## One iteration -/

/-- What holds of the date at the start of an iteration. -/
structure Head (dt : GregorianDateTime) : Prop where
  minute : 0 ≤ dt.minute ∧ dt.minute ≤ 60
  hour : 0 ≤ dt.hour ∧ dt.hour ≤ 24
  year : daysBeforeYear dt.year ≤ dayNumber ⟨dt.year, dt.month, dt.day⟩
  year_succ : dayNumber ⟨dt.year, dt.month, dt.day⟩ ≤ daysBeforeYear (dt.year + 1)

/-- The minutes from `n` up to `m` that match are behind the range. -/
def Passes (e : CronExpression) (tz : Zone) (n m : ℤ) : Prop :=
  ∀ k, n ≤ k → k < m → matchesMinute e k = true → maxEcmascriptTime < instant tz k

section Iteration

variable {e : CronExpression} {tz : Zone} {dt fromDt : GregorianDateTime} {n fromMs : ℤ}

theorem Normal.valid (h : Normal dt n) : (⟨dt.year, dt.month, dt.day⟩ : Date).Valid :=
  h.date ▸ ofDayNumber_valid _

theorem Normal.dayNumber (h : Normal dt n) : dayNumber ⟨dt.year, dt.month, dt.day⟩ = n / 1440 := by
  rw [← h.date, dayNumber_ofDayNumber]

/-- The minute and the hour that are carried. -/
theorem carry_spec (h : Head dt) :
    minuteNumber (carry dt) = minuteNumber dt ∧ 0 ≤ (carry dt).minute ∧ (carry dt).minute ≤ 59 ∧
      0 ≤ (carry dt).hour ∧ (carry dt).hour ≤ 23 := by
  obtain ⟨hminute, hhour, -, -⟩ := h
  obtain ⟨year, month, day, hour, minute, second, weekday⟩ := dt
  have hday := dayNumber_next_day year month day
  dsimp only at hminute hhour
  rw [carry]
  dsimp only
  split
  · dsimp only
    split
    · refine ⟨?_, ?_, ?_, ?_, ?_⟩ <;> simp only [minuteNumber, hday] <;> omega
    · refine ⟨?_, ?_, ?_, ?_, ?_⟩ <;> simp only [minuteNumber] <;> omega
  · dsimp only
    split
    · refine ⟨?_, ?_, ?_, ?_, ?_⟩ <;> simp only [minuteNumber, hday] <;> omega
    · refine ⟨?_, ?_, ?_, ?_, ?_⟩ <;> simp only [minuteNumber] <;> omega

/-- The date that goes through the conversions. -/
theorem normalize_spec (hminute : 0 ≤ dt.minute ∧ dt.minute ≤ 59)
    (hhour : 0 ≤ dt.hour ∧ dt.hour ≤ 23) {noon : GregorianDateTime}
    (hnoon : noon =
      msToGregorianDateTimeUtc (gregorianDateTimeToMsUtc dt.year dt.month dt.day 12 0 0 0)) :
    Normal { dt with year := noon.year, month := noon.month, day := noon.day, weekday :=
      noon.weekday } (minuteNumber dt) := by
  have hday : gregorianDateTimeToMsUtc dt.year dt.month dt.day 12 0 0 0 / dayMs + epochDay =
      dayNumber ⟨dt.year, dt.month, dt.day⟩ := by
    rw [gregorianDateTimeToMsUtc, dayMs, minuteMs]
    omega
  have hnumber : minuteNumber dt / 1440 = dayNumber ⟨dt.year, dt.month, dt.day⟩ := by
    rw [minuteNumber]
    omega
  rw [hnoon, msToGregorianDateTimeUtc, hday]
  constructor
  · rw [hnumber]
  · rw [hnumber]
  · rw [minuteNumber]
    dsimp only
    omega
  · rw [minuteNumber]
    dsimp only
    omega

/-- In a zone of constant offset no minute is repeated. -/
theorem resolveLocalMatch_eq (h : Normal dt n) (hfrom : minuteOf tz fromMs < n) :
    e.resolveLocalMatch tz dt fromMs (tz.msToGregorian fromMs) = some (instant tz n) := by
  have hresult : tz.gregorianToMs dt.year dt.month dt.day dt.hour dt.minute = instant tz n := by
    rw [Zone.gregorianToMs, gregorianDateTimeToMsUtc_eq, h.minuteNumber]
    rfl
  have hlt : fromMs < instant tz n := lt_instant_iff.2 hfrom
  have hwall : ¬(instant tz n ≤ fromMs ∨ instant tz n - fromMs >
      (n - epochDay * 1440) * minuteMs - (minuteOf tz fromMs - epochDay * 1440) * minuteMs) := by
    rw [minuteOf, instant, minuteMs]
    rw [instant, minuteMs] at hlt
    omega
  rw [resolveLocalMatch, hresult, gregorianDateTimeToMsUtc_eq, gregorianDateTimeToMsUtc_eq,
    h.minuteNumber, (normal_msToGregorian tz fromMs).minuteNumber, if_neg fun hrepeated =>
      hwall hrepeated.2]
  exact if_pos hlt

/-- What an iteration leaves for the next one. -/
structure Goes (e : CronExpression) (tz : Zone) (n : ℤ) (dt : GregorianDateTime) : Prop where
  head : Head dt
  lt : n < minuteNumber dt
  passes : Passes e tz n (minuteNumber dt)

section

variable (h : Normal dt n)
include h

/-- The rest of a month that does not match is passed over. -/
theorem Normal.goes_month (hmonth : bitSet e.months dt.month = false) :
    Goes e tz n { dt with month := dt.month + 1, day := 1, hour := 0, minute := 0 } := by
  obtain ⟨hyear, hfirst, hlast, hend⟩ := h.valid.bounds
  have hday := h.dayNumber
  have hnext : Cron.minuteNumber
    { dt with month := dt.month + 1, day := 1, hour := 0, minute := 0 } =
      Lib.Gregorian.dayNumber ⟨dt.year, dt.month + 1, 1⟩ * 1440 := by
    rw [Cron.minuteNumber]
    ring
  refine ⟨⟨⟨le_rfl, by simp⟩, ⟨le_rfl, by simp⟩, ?_, hend⟩, ?_, ?_⟩
  · dsimp only
    omega
  · omega
  · intro k hle hlt hmatch
    have hdate : ofDayNumber (k / 1440) = _ :=
      ofDayNumber_month h.valid.one_le_month h.valid.month_le
      (show Lib.Gregorian.dayNumber ⟨dt.year, dt.month, 1⟩ ≤ k / 1440 by omega)
      (show k / 1440 < Lib.Gregorian.dayNumber ⟨dt.year, dt.month + 1, 1⟩ by omega)
    rw [matchesMinute, hdate, hmonth, Bool.and_false, Bool.false_and] at hmatch
    exact (Bool.false_ne_true hmatch).elim

/-- The rest of a day is passed over. -/
theorem Normal.goes_day (hday : e.matchesDay dt.day dt.weekday = false) :
    Goes e tz n { dt with day := dt.day + 1, hour := 0, minute := 0 } := by
  obtain ⟨hyear, hfirst, hlast, hend⟩ := h.valid.bounds
  have hnumber := h.dayNumber
  have hsucc := dayNumber_next_day dt.year dt.month dt.day
  have hnext : Cron.minuteNumber { dt with day := dt.day + 1, hour := 0, minute := 0 } =
      Lib.Gregorian.dayNumber ⟨dt.year, dt.month, dt.day + 1⟩ * 1440 := by
    rw [Cron.minuteNumber]
    ring
  refine ⟨⟨⟨le_rfl, by simp⟩, ⟨le_rfl, by simp⟩, ?_, ?_⟩, ?_, ?_⟩
  · dsimp only
    omega
  · dsimp only
    omega
  · omega
  · intro k hle hlt hmatch
    have hk : k / 1440 = n / 1440 := by omega
    rw [matchesMinute, hk, h.date, h.weekday, hday, Bool.and_false] at hmatch
    exact (Bool.false_ne_true hmatch).elim

/-- The rest of an hour is passed over. -/
theorem Normal.goes_hour (hhour : bitSet e.hours dt.hour = false) :
    Goes e tz n { dt with hour := dt.hour + 1, minute := 0 } := by
  obtain ⟨hyear, hfirst, hlast, hend⟩ := h.valid.bounds
  have hnumber := h.minuteNumber
  have hday := h.dayNumber
  have hour := h.hour
  have hminute := h.minute
  have hnext : Cron.minuteNumber { dt with hour := dt.hour + 1, minute := 0 } =
      Cron.minuteNumber dt + 60 - dt.minute := by
    rw [Cron.minuteNumber, Cron.minuteNumber]
    ring
  refine ⟨⟨⟨le_rfl, by simp⟩, ?_, ?_, ?_⟩, ?_, ?_⟩
  · dsimp only
    omega
  · exact hyear.trans hfirst
  · exact hlast.le.trans hend
  · omega
  · intro k hle hlt hmatch
    have hk : k / 60 % 24 = n / 60 % 24 := by omega
    rw [matchesMinute, hk, h.hour, hhour, Bool.and_false, Bool.false_and, Bool.false_and] at hmatch
    exact (Bool.false_ne_true hmatch).elim

/-- A minute is passed over. -/
theorem Normal.goes_minute (hminute : matchesMinute e n = true → maxEcmascriptTime < instant tz n) :
    Goes e tz n { dt with minute := dt.minute + 1 } := by
  obtain ⟨hyear, hfirst, hlast, hend⟩ := h.valid.bounds
  have hnumber := h.minuteNumber
  have hhour := h.hour
  have hmin := h.minute
  have hnext : Cron.minuteNumber { dt with minute := dt.minute + 1 } = Cron.minuteNumber dt +
      1 := by
    rw [Cron.minuteNumber, Cron.minuteNumber]
    ring
  refine ⟨⟨?_, ?_, hyear.trans hfirst, hlast.le.trans hend⟩, ?_, ?_⟩
  · dsimp only
    omega
  · dsimp only
    omega
  · omega
  · intro k hle hlt hmatch
    obtain rfl : k = n := by omega
    exact hminute hmatch

/-- The checks go to the next month, day, hour or minute, or give the time of a match. -/
theorem checkFields_spec (hfrom : minuteOf tz fromMs < n) :
    (∃ next, e.checkFields tz fromMs (tz.msToGregorian fromMs) dt = .again next ∧
      Goes e tz n next) ∨
    e.checkFields tz fromMs (tz.msToGregorian fromMs) dt = .done (some (instant tz n)) ∧
      matchesMinute e n = true ∧ instant tz n ≤ maxEcmascriptTime := by
  rw [checkFields]
  cases hmonth : bitSet e.months dt.month with
  | false => exact .inl ⟨_, rfl, h.goes_month hmonth⟩
  | true =>
  cases hday : e.matchesDay dt.day dt.weekday with
  | false => exact .inl ⟨_, rfl, h.goes_day hday⟩
  | true =>
  cases hhour : bitSet e.hours dt.hour with
  | false => exact .inl ⟨_, rfl, h.goes_hour hhour⟩
  | true =>
  have hmatches := h.matches (e := e)
  rw [hmonth, hday, hhour] at hmatches
  cases hminute : bitSet e.minutes dt.minute with
  | false =>
    rw [hminute] at hmatches
    exact .inl ⟨_, rfl, h.goes_minute fun hmatch =>
      (Bool.false_ne_true (hmatches.symm.trans hmatch)).elim⟩
  | true =>
    rw [hminute] at hmatches
    rw [resolveLocalMatch_eq h hfrom]
    by_cases hmax : instant tz n ≤ maxEcmascriptTime
    · exact .inr ⟨if_pos hmax, hmatches, hmax⟩
    · exact .inl ⟨_, if_neg hmax, h.goes_minute fun _ => not_le.1 hmax⟩

end

/-- An iteration goes on, gives the time of a match, or ends behind the eight years or the range. -/
theorem nextStep_spec (h : Head dt) (hfrom : minuteOf tz fromMs < minuteNumber dt) :
    (∃ next, e.nextStep tz fromMs (tz.msToGregorian fromMs) dt = .again next ∧
      dt.year - (tz.msToGregorian fromMs).year ≤ 8 ∧ Goes e tz (minuteNumber dt) next) ∨
    (∃ n, e.nextStep tz fromMs (tz.msToGregorian fromMs) dt = .done (some (instant tz n)) ∧
      n = minuteNumber dt ∧ matchesMinute e n = true ∧ instant tz n ≤ maxEcmascriptTime) ∨
    e.nextStep tz fromMs (tz.msToGregorian fromMs) dt = .done none ∧
      (8 < dt.year - (tz.msToGregorian fromMs).year ∨
        maxEcmascriptTime < instant tz (minuteNumber dt)) := by
  rw [nextStep]
  by_cases hyear : dt.year - (tz.msToGregorian fromMs).year ≤ 8
  swap
  · exact .inr (.inr ⟨if_neg hyear, .inl (not_le.1 hyear)⟩)
  rw [if_pos hyear]
  obtain ⟨hnumber, hminute, hminute', hhour, hhour'⟩ := carry_spec h
  by_cases hnoon : gregorianDateTimeToMsUtc (carry dt).year (carry dt).month (carry dt).day 12 0
    0 0 > lastDayNoonMs
  · refine .inr (.inr ⟨if_pos hnoon, .inr ?_⟩)
    have hoffset := tz.lt
    rw [gregorianDateTimeToMsUtc] at hnoon
    rw [← hnumber, minuteNumber, instant]
    rw [lastDayNoonMs, maxEcmascriptTime, dayMs, minuteMs] at hnoon
    rw [dayMs] at hoffset
    rw [maxEcmascriptTime, minuteMs]
    omega
  · rw [if_neg hnoon]
    have hnormal := normalize_spec ⟨hminute, hminute'⟩ ⟨hhour, hhour'⟩ rfl
    rw [hnumber] at hnormal
    rcases checkFields_spec (e := e) hnormal hfrom with ⟨next, hnext, hgoes⟩ | ⟨hdone, hmatch, hmax⟩
    · exact .inl ⟨next, hnext, hyear, hgoes⟩
    · exact .inr (.inl ⟨_, hdone, rfl, hmatch, hmax⟩)

end Iteration

/-! ## Eight years -/

/-- A field that is `*` has all its values. -/
structure Wildcards (e : CronExpression) : Prop where
  days : e.daysIsWildcard = true → e.days = allDays
  weekdays : e.weekdaysIsWildcard = true → e.weekdays = allWeekdays

section Years

variable {e : CronExpression}

theorem bitSet_allDays {day : ℤ} (h1 : 1 ≤ day) (h31 : day ≤ 31) : bitSet allDays day = true := by
  have hall : ∀ day < 32, 1 ≤ day → bitSet allDays (day : ℕ) = true := by decide
  obtain ⟨n, rfl⟩ := Int.eq_ofNat_of_zero_le (show 0 ≤ day by omega)
  exact hall n (by omega) (by omega)

theorem bitSet_allWeekdays (n : ℤ) : bitSet allWeekdays (weekday n) = true := by
  have hall : ∀ w < 7, bitSet allWeekdays (w : ℕ) = true := by decide
  have hrange : 0 ≤ weekday n ∧ weekday n < 7 := by
    rw [weekday]
    omega
  obtain ⟨w, hw⟩ := Int.eq_ofNat_of_zero_le hrange.1
  rw [hw]
  exact hall w (by omega)

theorem day_le_of_valid {date : Date} (h : date.Valid) : date.day ≤ 31 := by
  refine h.day_le.trans ?_
  rw [monthLength]
  split
  · split <;> decide
  · split <;> decide

/-- A day matches by its day of the month alone, or by its weekday alone. -/
theorem matchesDay_cases (he : Wildcards e) {date : Date} {n : ℤ}
    (h : e.matchesDay date.day (weekday n) = true) :
    (∀ m, e.matchesDay date.day (weekday m) = true) ∨
      ∀ other : Date, other.Valid → e.matchesDay other.day (weekday n) = true := by
  rw [matchesDay] at h
  cases hdays : e.daysIsWildcard with
  | true =>
    rw [hdays, Bool.not_true, Bool.false_and, if_neg Bool.false_ne_true, Bool.and_eq_true] at h
    refine .inr fun other hother => ?_
    rw [matchesDay, hdays, h.2, he.days hdays,
      bitSet_allDays hother.one_le_day (day_le_of_valid hother)]
    rfl
  | false =>
    cases hweekdays : e.weekdaysIsWildcard with
    | true =>
      rw [hdays, hweekdays, Bool.not_true, Bool.and_false, if_neg Bool.false_ne_true,
        Bool.and_eq_true] at h
      refine .inl fun m => ?_
      rw [matchesDay, hdays, hweekdays, h.1, he.weekdays hweekdays, bitSet_allWeekdays]
      rfl
    | false =>
      rw [hdays, hweekdays, Bool.not_false, Bool.and_true, if_pos rfl, Bool.or_eq_true] at h
      rcases h with h | h
      · refine .inl fun m => ?_
        rw [matchesDay, hdays, hweekdays, h]
        rfl
      · refine .inr fun other _ => ?_
        rw [matchesDay, hdays, hweekdays, h]
        exact Bool.or_true _

/-- A day of a later year matches, within eight years. -/
theorem exists_matchesDay (he : Wildcards e) {n : ℤ}
    (hmonth : bitSet e.months (ofDayNumber n).month = true)
    (hday : e.matchesDay (ofDayNumber n).day (weekday n) = true) (year : ℤ) :
    ∃ m, bitSet e.months (ofDayNumber m).month = true ∧
      e.matchesDay (ofDayNumber m).day (weekday m) = true ∧
      daysBeforeYear (year + 1) ≤ m ∧ m < daysBeforeYear (year + 9) := by
  have hvalid := ofDayNumber_valid n
  rcases matchesDay_cases he hday with h | h
  · obtain ⟨later, hlt, hle, hlater⟩ := exists_valid hvalid year
    obtain ⟨hfirst, hfirst', hlast, hlast'⟩ := hlater.bounds
    have hstart := daysBeforeYear_le (show year + 1 ≤ later from hlt)
    have hend := daysBeforeYear_le (show later + 1 ≤ year + 9 by omega)
    refine ⟨_, ?_, ?_, hstart.trans (hfirst.trans hfirst'), hlast.trans_le (hlast'.trans hend)⟩
    · rw [ofDayNumber_dayNumber hlater]
      exact hmonth
    · rw [ofDayNumber_dayNumber hlater]
      exact h _
  · have hrange : 0 ≤ weekday n ∧ weekday n < 7 := by
      rw [weekday]
      omega
    obtain ⟨day, hother, hweekday⟩ :=
      exists_weekday hvalid.one_le_month hvalid.month_le hrange (year + 1)
    obtain ⟨hfirst, hfirst', hlast, hlast'⟩ := hother.bounds
    have hend := daysBeforeYear_le (show year + 1 + 1 ≤ year + 9 by omega)
    refine ⟨_, ?_, ?_, hfirst.trans hfirst', hlast.trans_le (hlast'.trans hend)⟩
    · rw [ofDayNumber_dayNumber hother]
      exact hmonth
    · rw [ofDayNumber_dayNumber hother, hweekday]
      exact h _ hother

/-- When a minute matches, there is one within eight years of the minute `n`. -/
theorem exists_matchesMinute (he : Wildcards e) {k : ℤ} (h : matchesMinute e k = true) (n : ℤ) :
    ∃ m, matchesMinute e m = true ∧ n < m ∧
      m < daysBeforeYear ((ofDayNumber (n / 1440)).year + 9) * 1440 := by
  rw [matchesMinute, Bool.and_eq_true, Bool.and_eq_true, Bool.and_eq_true] at h
  obtain ⟨⟨⟨hminute, hhour⟩, hmonth⟩, hday⟩ := h
  obtain ⟨m, hmonth', hday', hle, hlt⟩ :=
    exists_matchesDay he hmonth hday (ofDayNumber (n / 1440)).year
  have hn : n / 1440 < daysBeforeYear ((ofDayNumber (n / 1440)).year + 1) :=
    (yearOf_spec (n / 1440)).2
  refine ⟨m * 1440 + k % 1440, ?_, by omega, by omega⟩
  have h1 : (m * 1440 + k % 1440) / 1440 = m := by omega
  have h2 : (m * 1440 + k % 1440) / 60 % 24 = k / 60 % 24 := by omega
  have h3 : (m * 1440 + k % 1440) % 60 = k % 60 := by omega
  rw [matchesMinute, h1, h2, h3, hminute, hhour, hmonth', hday']
  rfl

end Years

/-! ## The run -/

/-- The result of `next`. -/
structure Found (e : CronExpression) (tz : Zone) (fromMs : ℤ) (result : Option ℤ) : Prop where
  isLeast : ∀ ms, result = some ms → IsLeast (matching e tz fromMs) ms
  empty : result = none → matching e tz fromMs = ∅

section Run

variable {e : CronExpression} {tz : Zone} {dt : GregorianDateTime} {fromMs n : ℤ}

theorem Passes.trans {m k : ℤ} (h : Passes e tz n m) (h' : Passes e tz m k) : Passes e tz n k :=
  fun i hn hk hmatch => (lt_or_ge i m).elim (fun hlt => h i hn hlt hmatch) fun hge =>
    h' i hge hk hmatch

/-- No minute before `n` is in the range and matches. -/
theorem Passes.le (h : Passes e tz (minuteOf tz fromMs + 1) n) {k : ℤ} (hk : minuteOf tz fromMs < k)
    (hmax : instant tz k ≤ maxEcmascriptTime) (hmatch : matchesMinute e k = true) : n ≤ k :=
  not_lt.1 fun hlt => (h k hk hlt hmatch).not_ge hmax

theorem found_some (hpasses : Passes e tz (minuteOf tz fromMs + 1) n) (hn : minuteOf tz fromMs < n)
    (hmatch : matchesMinute e n = true) (hmax : instant tz n ≤ maxEcmascriptTime) :
    Found e tz fromMs (some (instant tz n)) := by
  refine ⟨fun ms hms => ?_, fun hnone => nomatch hnone⟩
  obtain rfl := some.inj hms
  refine ⟨mem_matching.2 ⟨n, rfl, hn, hmax, hmatch⟩, fun other hother => ?_⟩
  obtain ⟨k, rfl, hk, hmax', hmatch'⟩ := mem_matching.1 hother
  exact not_lt.1 fun hlt => (hpasses.le hk hmax' hmatch').not_gt (instant_lt_iff.1 hlt)

theorem found_none (he : Wildcards e) (hpasses : Passes e tz (minuteOf tz fromMs + 1) n)
    (hend : daysBeforeYear ((tz.msToGregorian fromMs).year + 9) * 1440 ≤ n ∨
      maxEcmascriptTime < instant tz n) : Found e tz fromMs none := by
  refine ⟨fun ms hms => (some_ne_none ms hms.symm).elim, fun _ => ?_⟩
  refine Set.eq_empty_iff_forall_notMem.2 fun ms hms => ?_
  obtain ⟨k, rfl, hk, hmax, hmatch⟩ := mem_matching.1 hms
  have hle := hpasses.le hk hmax hmatch
  have hafter : ∀ m, m ≤ k → ¬maxEcmascriptTime < instant tz m := fun m hm hlt =>
    hm.not_gt (instant_lt_iff.1 (hmax.trans_lt hlt))
  rcases hend with hend | hend
  · obtain ⟨m, hmatch', hm, hlt⟩ := exists_matchesMinute he hmatch (minuteOf tz fromMs)
    rw [(normal_msToGregorian tz fromMs).date] at hlt
    have hbefore : m < n := hlt.trans_le hend
    exact hafter m (by omega) (hpasses m hm hbefore hmatch')
  · exact hafter n hle hend

/-- With more iterations than minutes are left the loop ends. -/
theorem nextLoop_spec (tz : Zone) (fromMs : ℤ) (he : Wildcards e) :
    ∀ (k : ℕ) {dt : GregorianDateTime}, Head dt →
    minuteOf tz fromMs < minuteNumber dt → Passes e tz (minuteOf tz fromMs + 1) (minuteNumber dt) →
    daysBeforeYear ((tz.msToGregorian fromMs).year + 9) * 1440 + 1501 - minuteNumber dt ≤ k →
    ∃ result, (∀ fuel, k < fuel → e.nextLoop tz fromMs (tz.msToGregorian fromMs) fuel dt =
      some result) ∧ Found e tz fromMs result := by
  intro k
  induction k using Nat.strong_induction_on with
  | _ k ih =>
    intro dt hhead hfrom hpasses hleft
    rcases nextStep_spec (e := e) hhead hfrom with ⟨next, hnext, hyear, hgoes⟩ |
        ⟨n, hdone, rfl, hmatch, hmax⟩ | ⟨hdone, hend⟩
    · have hbefore := daysBeforeYear_le
        (show dt.year + 1 ≤ (tz.msToGregorian fromMs).year + 9 by omega)
      have hbound : minuteNumber dt ≤
          daysBeforeYear ((tz.msToGregorian fromMs).year + 9) * 1440 + 1500 := by
        have hlast := hhead.year_succ
        have hhour := hhead.hour
        have hminute := hhead.minute
        rw [minuteNumber]
        omega
      have hlt := hgoes.lt
      obtain ⟨result, hrun, hfound⟩ := ih (k - 1) (by omega) hgoes.head (hfrom.trans hlt)
        (hpasses.trans hgoes.passes) (by omega)
      refine ⟨result, fun fuel hfuel => ?_, hfound⟩
      obtain ⟨fuel, rfl⟩ := exists_eq_succ_of_ne_zero (ne_zero_of_lt hfuel)
      rw [nextLoop, hnext]
      exact hrun fuel (by omega)
    · refine ⟨_, fun fuel hfuel => ?_, found_some hpasses hfrom hmatch hmax⟩
      obtain ⟨fuel, rfl⟩ := exists_eq_succ_of_ne_zero (ne_zero_of_lt hfuel)
      rw [nextLoop, hdone]
    · refine ⟨none, fun fuel hfuel => ?_, found_none he hpasses (hend.imp_left fun hyear => ?_)⟩
      · obtain ⟨fuel, rfl⟩ := exists_eq_succ_of_ne_zero (ne_zero_of_lt hfuel)
        rw [nextLoop, hdone]
      · have hbefore := daysBeforeYear_le
          (show (tz.msToGregorian fromMs).year + 9 ≤ dt.year by omega)
        have hfirst := hhead.year
        have hhour := hhead.hour
        have hminute := hhead.minute
        rw [minuteNumber]
        omega

/-- The loop starts at the minute after `fromMs`. -/
theorem head_start (tz : Zone) (fromMs : ℤ) :
    Head { tz.msToGregorian fromMs with minute := (tz.msToGregorian fromMs).minute + 1 } ∧
      minuteNumber { tz.msToGregorian fromMs with minute := (tz.msToGregorian fromMs).minute + 1 } =
        minuteOf tz fromMs + 1 := by
  have hnormal := normal_msToGregorian tz fromMs
  obtain ⟨hyear, hfirst, hlast, hend⟩ := hnormal.valid.bounds
  have hnumber := hnormal.minuteNumber
  have hhour := hnormal.hour
  have hminute := hnormal.minute
  refine ⟨⟨?_, ?_, hyear.trans hfirst, hlast.le.trans hend⟩, ?_⟩
  · dsimp only
    omega
  · dsimp only
    omega
  · rw [minuteNumber] at hnumber ⊢
    rw [← hnumber]
    ring

end Run

/-! ## Expressions -/

section Parse

variable {e : CronExpression}

theorem wildcards_of_parseNickname {expr : Bytes} (h : parseNickname expr = some e) :
    Wildcards e := by
  rw [parseNickname] at h
  iterate 5
    split at h
    · obtain rfl := some.inj h
      exact ⟨by decide, by decide⟩
  exact nomatch h

theorem parseField_days : parseField 32 [b '*'] 1 31 .none = .ok allDays := by decide +kernel

theorem parseField_weekdays :
    parseField 8 [b '*'] 0 7 .weekday = .ok allWeekdays := by decide +kernel

theorem wildcards_of_parse {input : Bytes} (h : parse input = .ok e) : Wildcards e := by
  rw [parse] at h
  split at h
  · split at h
    next expression hnickname =>
      rw [← Except.ok.inj h]
      exact wildcards_of_parseNickname hnickname
    · exact nomatch h
  · split at h
    next minute hour day month weekday _ =>
      obtain ⟨minutes, -, h⟩ := Lib.bind_eq_ok h
      obtain ⟨hours, -, h⟩ := Lib.bind_eq_ok h
      obtain ⟨days, hdays, h⟩ := Lib.bind_eq_ok h
      obtain ⟨months, -, h⟩ := Lib.bind_eq_ok h
      obtain ⟨weekdays, hweekdays, h⟩ := Lib.bind_eq_ok h
      rw [← Except.ok.inj h]
      refine ⟨fun hday => ?_, fun hweekday => ?_⟩
      · rw [of_decide_eq_true hday, parseField_days] at hdays
        exact (Except.ok.inj hdays).symm
      · rw [of_decide_eq_true hweekday, parseField_weekdays] at hweekdays
        exact (Except.ok.inj hweekdays).symm
    · exact nomatch h

/-- For an expression that is accepted, `next` ends with the least time that matches, or with none
when there is none. -/
theorem next_found {input : Bytes} (h : parse input = .ok e) (tz : Zone) {fromMs : ℤ}
    (hrange : |fromMs| ≤ maxEcmascriptTime) :
    ∃ result, (∀ᶠ fuel in Filter.atTop, e.next tz fromMs fuel = some result) ∧
      Found e tz fromMs result := by
  obtain ⟨hhead, hstart⟩ := head_start tz fromMs
  obtain ⟨least, hleast⟩ : ∃ least : ℕ,
      daysBeforeYear ((tz.msToGregorian fromMs).year + 9) * 1440 + 1501 - minuteOf tz fromMs ≤
        least :=
    ⟨_, Int.self_le_toNat _⟩
  obtain ⟨result, hrun, hfound⟩ :=
    nextLoop_spec tz fromMs (wildcards_of_parse h) least hhead (by omega)
    (fun k hle hlt => by omega) (by omega)
  refine ⟨result, (Filter.eventually_gt_atTop least).mono fun fuel hfuel => ?_, hfound⟩
  rw [CronExpression.next, if_neg (not_lt.2 hrange)]
  exact hrun fuel hfuel

theorem next_found_leap_day :
    ∃ e, parse (text "0 0 29 2 *") = .ok e ∧ ∃ result,
      (∀ᶠ fuel in Filter.atTop, e.next ⟨0, by decide, by decide⟩ 4107542400000 fuel = some result) ∧
      Found e ⟨0, by decide, by decide⟩ 4107542400000 result := by
  obtain ⟨e, he⟩ : ∃ e, parse (text "0 0 29 2 *") = .ok e := ⟨_, rfl⟩
  exact ⟨e, he, next_found he ⟨0, by decide, by decide⟩ (by decide)⟩

end Parse

/-! ## The timer of a job -/

/-- `CronJob::compute_next_timespec` with the clock at `nowMs`: the new `last_next_ms` and the
delay. -/
def computeNextTimespec (e : CronExpression) (tz : Zone) (fuel : ℕ) (lastNextMs nowMs : ℤ) :
    Option (Option (ℤ × ℤ)) :=
  (e.next tz (max nowMs lastNextMs) fuel).map
    (·.map fun nextMs => (nextMs, max (nextMs - nowMs) 1))

/-- The targets of a job that is scheduled again and again, with the clock at `nows`. -/
def targets (e : CronExpression) (tz : Zone) (fuel : ℕ) : ℤ → List ℤ → Option (List ℤ)
  | _, [] => some []
  | lastNextMs, nowMs :: nows => do
    match ← computeNextTimespec e tz fuel lastNextMs nowMs with
    | none => some []
    | some (nextMs, _) => (nextMs :: ·) <$> targets e tz fuel nextMs nows

section Job

variable {e : CronExpression}

theorem next_least {input : Bytes} (h : parse input = .ok e) (tz : Zone) {fromMs : ℤ}
    (hfrom : 0 ≤ fromMs) :
    ∃ result, (∀ᶠ fuel in Filter.atTop, e.next tz fromMs fuel = some result) ∧
      Found e tz fromMs result := by
  by_cases hrange : |fromMs| > maxEcmascriptTime
  · refine ⟨none, .of_forall fun fuel => by rw [CronExpression.next, if_pos hrange], nofun,
      fun _ => ?_⟩
    rw [abs_of_nonneg hfrom] at hrange
    exact Set.eq_empty_iff_forall_notMem.2 fun ms hms => (hrange.trans hms.1).not_ge hms.2.1
  obtain ⟨hhead, hstart⟩ := head_start tz fromMs
  obtain ⟨least, hleast⟩ : ∃ least : ℕ,
      daysBeforeYear ((tz.msToGregorian fromMs).year + 9) * 1440 + 1501 - minuteOf tz fromMs ≤
        least :=
    ⟨_, Int.self_le_toNat _⟩
  obtain ⟨result, hrun, hfound⟩ :=
    nextLoop_spec tz fromMs (wildcards_of_parse h) least hhead (by omega)
    (fun k hle hlt => by omega) (by omega)
  refine ⟨result, (Filter.eventually_gt_atTop least).mono fun fuel hfuel => ?_, hfound⟩
  rw [CronExpression.next, if_neg hrange]
  exact hrun fuel hfuel

/-- A job fires at matching times, later ones each time wherever the clock is, and leaves out a
matching time only when the clock has passed it. -/
theorem targets_increase {input : Bytes} (h : parse input = .ok e) (tz : Zone) :
    ∀ (nows : List ℤ) {last : ℤ}, 0 ≤ last → ∃ ts,
      (∀ᶠ fuel in Filter.atTop, targets e tz fuel last nows = some ts) ∧ ts.Pairwise (· < ·) ∧
      (∀ t ∈ ts, t ∈ matching e tz last) ∧ ∀ ms ∈ matching e tz last, ms ∈ ts ∨
        (∃ nowMs ∈ nows, ms ≤ nowMs) ∨ ts.length = nows.length ∧ ∀ t ∈ ts, t < ms
  | [], last, _ => ⟨[], .of_forall fun _ => rfl, .nil, nofun, fun _ _ => .inr (.inr ⟨rfl, nofun⟩)⟩
  | nowMs :: nows, last, hlast => by
    obtain ⟨result, hnext, hfound⟩ := next_least h tz (hlast.trans (le_max_right nowMs last))
    cases result with
    | none =>
      refine ⟨[], hnext.mono fun fuel hnext => by simp [targets, computeNextTimespec, hnext], .nil,
        nofun, fun ms hms => ?_⟩
      have hnot := Set.eq_empty_iff_forall_notMem.1 (hfound.empty rfl) ms
      have hle : ms ≤ nowMs := not_lt.1 fun hlt => hnot ⟨max_lt hlt hms.1, hms.2⟩
      exact .inr (.inl ⟨nowMs, mem_cons_self, hle⟩)
    | some t =>
      obtain ⟨⟨hafter, ht⟩, hleast⟩ := hfound.isLeast t rfl
      have hlt : last < t := (le_max_right nowMs last).trans_lt hafter
      obtain ⟨ts, hts, hpairwise, hmatch, hall⟩ := targets_increase h tz nows (hlast.trans hlt.le)
      refine ⟨t :: ts, hnext.mp (hts.mono fun fuel hts hnext => by
        simp [targets, computeNextTimespec, hnext, hts]),
        pairwise_cons.2 ⟨fun u hu => (hmatch u hu).1, hpairwise⟩, ?_, fun ms hms => ?_⟩
      · exact forall_mem_cons.2
          ⟨⟨hlt, ht⟩, fun u hu => ⟨hlt.trans (hmatch u hu).1, (hmatch u hu).2⟩⟩
      -- A match before the target is one the clock has passed.
      rcases lt_trichotomy ms t with hms' | rfl | hms'
      · have hle : ms ≤ nowMs :=
          not_lt.1 fun hlt' => (hleast ⟨max_lt hlt' hms.1, hms.2⟩).not_gt hms'
        exact .inr (.inl ⟨nowMs, mem_cons_self, hle⟩)
      · exact .inl mem_cons_self
      · rcases hall ms ⟨hms', hms.2⟩ with hmem | ⟨now, hnow, hle⟩ | ⟨hlength, hlast⟩
        · exact .inl (mem_cons_of_mem t hmem)
        · exact .inr (.inl ⟨now, mem_cons_of_mem nowMs hnow, hle⟩)
        · exact .inr (.inr ⟨congrArg (· + 1) hlength, forall_mem_cons.2 ⟨hms', hlast⟩⟩)

/-- The midnights of leap days, with a clock that is set back. -/
theorem targets_increase_leap_day :
    ∃ e ts, parse (text "0 0 29 2 *") = .ok e ∧ ts.Pairwise (· < ·) ∧
      ∀ᶠ fuel in Filter.atTop, targets e ⟨0, by decide, by decide⟩ fuel 0 [4107542400000, 0] =
        some ts := by
  obtain ⟨e, he⟩ : ∃ e, parse (text "0 0 29 2 *") = .ok e := ⟨_, rfl⟩
  obtain ⟨ts, hts, hpairwise, -⟩ :=
    targets_increase he ⟨0, by decide, by decide⟩ [4107542400000, 0] le_rfl
  exact ⟨e, ts, he, hpairwise, hts⟩

end Job

end Soup.Cron
