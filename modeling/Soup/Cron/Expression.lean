import Mathlib.Data.BitVec
import Soup.Bytes
import Soup.Lib.Gregorian

/-!
# Cron expressions

`CronExpression::parse` of `cron_parser.rs`. A field is a bit set of the width that it has in the
source, and a value of a field is a number.
-/

namespace Soup.Cron

inductive CronError where
  | invalidField
  | invalidStep
  | invalidRange
  | invalidNumber
  | tooManyFields
  | tooFewFields
  deriving DecidableEq, Repr

structure CronExpression where
  minutes : BitVec 64
  hours : BitVec 32
  days : BitVec 32
  months : BitVec 16
  weekdays : BitVec 8
  daysIsWildcard : Bool
  weekdaysIsWildcard : Bool
  deriving DecidableEq

def allMinutes : BitVec 64 := 2 ^ 60 - 1

def allHours : BitVec 32 := 2 ^ 24 - 1

def allDays : BitVec 32 := ~~~1

def allMonths : BitVec 16 := (2 ^ 13 - 1) &&& ~~~1

def allWeekdays : BitVec 8 := 2 ^ 7 - 1

/-! ## Values -/

def toAsciiLower (c : UInt8) : UInt8 := if b 'A' ≤ c ∧ c ≤ b 'Z' then c + 32 else c

/-- `eql_case_insensitive_asciii_check_length`. -/
def eqlCaseInsensitive (s : Bytes) (name : String) : Bool :=
  s.map toAsciiLower = (text name).map toAsciiLower

/-- `parse_decimal::<u8>`. -/
def parseDecimal (s : Bytes) : Option ℕ :=
  let neg := s.head? = some (b '-')
  let digits := if s.head? = some (b '+') ∨ neg then s.tail else s
  if digits.head? = none ∨ digits.head? = some (b '_') ∨ digits.getLast? = some (b '_') then none
  else
    match accumulate 0 digits with
    | some n => if n ≤ (if neg then 0 else 255) then some n else none
    | none => none

inductive NameKind where
  | none
  | weekday
  | month
  deriving DecidableEq

def weekdayMap : List (String × ℕ) :=
  [("sun", 0), ("mon", 1), ("tue", 2), ("wed", 3), ("thu", 4), ("fri", 5), ("sat", 6),
    ("sunday", 0),
    ("monday", 1), ("tuesday", 2), ("wednesday", 3), ("thursday", 4), ("friday", 5),
    ("saturday", 6)]

def monthMap : List (String × ℕ) :=
  [("jan", 1), ("feb", 2), ("mar", 3), ("apr", 4), ("may", 5), ("jun", 6), ("jul", 7), ("aug", 8),
    ("sep", 9), ("oct", 10), ("nov", 11), ("dec", 12), ("january", 1), ("february", 2),
    ("march", 3),
    ("april", 4), ("june", 6), ("july", 7), ("august", 8), ("september", 9), ("october", 10),
    ("november", 11), ("december", 12)]

/-- `in_map_case_insensitive`. -/
def inMap (s : Bytes) (map : List (String × ℕ)) : Option ℕ :=
  (map.find? fun entry => eqlCaseInsensitive s entry.1).map Prod.snd

def NameKind.lookup (kind : NameKind) (s : Bytes) : Option ℕ :=
  match kind with
  | .none => Option.none
  | .weekday => inMap s weekdayMap
  | .month => inMap s monthMap

/-- All errors of `parse_value` are the same one. -/
def parseValue (s : Bytes) (min max : ℕ) (kind : NameKind) : Except CronError ℕ :=
  match kind.lookup s with
  | some v => .ok v
  | none =>
    match parseDecimal s with
    | some val => if val < min ∨ val > max then .error .invalidNumber else .ok val
    | none => .error .invalidNumber

/-! ## Fields -/

/-- What is before and behind the only `-`. -/
def splitRange (base : Bytes) : Option (Bytes × Bytes) :=
  match base.splitOn (b '-') with
  | [lo, hi] => if lo = [] ∨ hi = [] then none else some (lo, hi)
  | _ => none

def parseStep (step : Option Bytes) : Except CronError ℕ :=
  match step with
  | none => .ok 1
  | some s =>
    if s = [] then .error .invalidStep
    else
      match parseDecimal s with
      | some v => if v = 0 ∨ 127 < v then .error .invalidStep else .ok v
      | none => .error .invalidStep

def parseRange (base : Bytes) (hasStep : Bool) (min max : ℕ) (kind : NameKind) :
    Except CronError (ℕ × ℕ) :=
  if base = [b '*'] then .ok (min, max)
  else
    match splitRange base with
    | some (lo, hi) => do
      let lo ← parseValue lo min max kind
      let hi ← parseValue hi min max kind
      if lo > hi then .error .invalidRange else .ok (lo, hi)
    | none => do
      let lo ← parseValue base min max kind
      .ok (lo, if hasStep then max else lo)

/-- Every `step`-th value from `rangeMin` to `rangeMax` is set. -/
def setBits {w : ℕ} (result : BitVec w) (rangeMin rangeMax step : ℕ) : BitVec w :=
  if rangeMin ≤ rangeMax then
    (List.range' rangeMin ((rangeMax - rangeMin) / step + 1) step).foldl
      (fun result i => result ||| 1#w <<< i) result
  else result

def parsePart {w : ℕ} (min max : ℕ) (kind : NameKind) (result : BitVec w) (part : Bytes) :
    Except CronError (BitVec w) :=
  if part = [] then .error .invalidField
  else
    match part.splitOn (b '/') with
    | base :: steps => do
      if 1 < steps.length then .error .invalidStep
      else
        let step ← parseStep steps.head?
        let (rangeMin, rangeMax) ← parseRange base steps.head?.isSome min max kind
        .ok (setBits result rangeMin rangeMax step)
    | [] => .error .invalidField

def parseField (w : ℕ) (field : Bytes) (min max : ℕ) (kind : NameKind) :
    Except CronError (BitVec w) :=
  if field = [] then .error .invalidField
  else do
    let result ← (field.splitOn (b ',')).foldlM (parsePart min max kind) 0#w
    .ok (if kind = .weekday then (result ||| result >>> 7) &&& 0x7F else result)

/-! ## Expressions -/

def parseNickname (expr : Bytes) : Option CronExpression :=
  if eqlCaseInsensitive expr "@yearly" || eqlCaseInsensitive expr "@annually" then
    some ⟨1, 1, 1 <<< 1, 1 <<< 1, allWeekdays, false, true⟩
  else if eqlCaseInsensitive expr "@monthly" then
    some ⟨1, 1, 1 <<< 1, allMonths, allWeekdays, false, true⟩
  else if eqlCaseInsensitive expr "@weekly" then
    some ⟨1, 1, allDays, allMonths, 1, true, false⟩
  else if eqlCaseInsensitive expr "@daily" || eqlCaseInsensitive expr "@midnight" then
    some ⟨1, 1, allDays, allMonths, allWeekdays, true, true⟩
  else if eqlCaseInsensitive expr "@hourly" then
    some ⟨1, allHours, allDays, allMonths, allWeekdays, true, true⟩
  else none

def isBlank (c : UInt8) : Bool := c = b ' ' || c = b '\t'

def trim (input : Bytes) : Bytes :=
  ((input.dropWhile isBlank).reverse.dropWhile isBlank).reverse

def parse (input : Bytes) : Except CronError CronExpression :=
  let expr := trim input
  if expr.head? = some (b '@') then
    match parseNickname expr with
    | some expression => .ok expression
    | none => .error .invalidField
  else
    match (expr.splitOnP isBlank).filter fun field => field ≠ [] with
    | [minute, hour, day, month, weekday] => do
      let minutes ← parseField 64 minute 0 59 .none
      let hours ← parseField 32 hour 0 23 .none
      let days ← parseField 32 day 1 31 .none
      let months ← parseField 16 month 1 12 .month
      let weekdays ← parseField 8 weekday 0 7 .weekday
      .ok ⟨minutes, hours, days, months, weekdays, day = [b '*'], weekday = [b '*']⟩
    | fields => .error (if 5 < fields.length then .tooManyFields else .tooFewFields)

/-!
## The next time of a cron expression

`CronExpression::next` of `cron_parser.rs` in a zone of constant offset. A time in milliseconds,
which is a whole `f64` in the source, is an integer, and the conversions of dates are those of the
Gregorian calendar.
-/

open Lib.Gregorian

def minuteMs : ℤ := 60000

def dayMs : ℤ := 86400000

def maxEcmascriptTime : ℤ := 8640000000000000

def lastDayNoonMs : ℤ := maxEcmascriptTime + 12 * 60 * minuteMs

structure GregorianDateTime where
  year : ℤ
  month : ℤ
  day : ℤ
  hour : ℤ
  minute : ℤ
  second : ℤ
  weekday : ℤ
  deriving DecidableEq, Repr

/-! ### Conversions -/

/-- The day of the time `0`. -/
def epochDay : ℤ := dayNumber ⟨1970, 1, 1⟩

/-- `gregorian_date_time_to_ms_utc`. -/
def gregorianDateTimeToMsUtc (year month day hour minute second millisecond : ℤ) : ℤ :=
  (dayNumber ⟨year, month, day⟩ - epochDay) * dayMs + hour * 3600000 + minute * minuteMs + second *
    1000 + millisecond

/-- `ms_to_gregorian_date_time_utc`. -/
def msToGregorianDateTimeUtc (ms : ℤ) : GregorianDateTime :=
  let day := ms / dayMs + epochDay
  let date := ofDayNumber day
  ⟨date.year, date.month, date.day, ms / 3600000 % 24, ms / minuteMs % 60, ms / 1000 % 60,
    weekday day⟩

/-- A zone of constant offset, of less than a day. -/
structure Zone where
  offset : ℤ
  neg_lt : -dayMs < offset
  lt : offset < dayMs

def Zone.msToGregorian (tz : Zone) (ms : ℤ) : GregorianDateTime :=
  msToGregorianDateTimeUtc (ms + tz.offset)

def Zone.gregorianToMs (tz : Zone) (year month day hour minute : ℤ) : ℤ :=
  gregorianDateTimeToMsUtc year month day hour minute 0 0 - tz.offset

/-! ### Matches -/

def bitSet {w : ℕ} (set : BitVec w) (pos : ℤ) : Bool := set.getLsbD pos.toNat

namespace CronExpression

variable (e : CronExpression) (tz : Zone)

def matchesDay (day weekday : ℤ) : Bool :=
  let dayOk := bitSet e.days day
  let weekdayOk := bitSet e.weekdays weekday
  if !e.daysIsWildcard && !e.weekdaysIsWildcard then dayOk || weekdayOk else dayOk && weekdayOk

def matchesInstant (ms : ℤ) : Bool :=
  let t := tz.msToGregorian ms
  bitSet e.minutes t.minute && bitSet e.hours t.hour && bitSet e.months t.month &&
    e.matchesDay t.day t.weekday

/-- The probes of the repeated window, which are those before `cap`. -/
def probes (fromMs cap : ℤ) : List ℤ :=
  let probe := (fromMs / minuteMs + 1) * minuteMs
  (List.range ((cap - probe + minuteMs - 1) / minuteMs).toNat).map fun i : ℕ => probe + i * minuteMs

def resolveLocalMatch (dt : GregorianDateTime) (fromMs : ℤ) (fromDt : GregorianDateTime) :
    Option ℤ :=
  let result := tz.gregorianToMs dt.year dt.month dt.day dt.hour dt.minute
  let wallFrom :=
    gregorianDateTimeToMsUtc fromDt.year fromDt.month fromDt.day fromDt.hour fromDt.minute 0 0
  let wallDt := gregorianDateTimeToMsUtc dt.year dt.month dt.day dt.hour dt.minute 0 0
  let repeated :=
    if (e.minutes = allMinutes ∨ e.hours = allHours) ∧
        (result ≤ fromMs ∨ result - fromMs > wallDt - wallFrom) then
      let cap := fromMs + (120 + 1) * minuteMs
      (probes fromMs (if result > fromMs then min cap result else cap)).find? (e.matchesInstant tz)
    else none
  match repeated with
  | some probe => some probe
  | none => if result > fromMs then some result else none

/-! ### The loop -/

/-- What an iteration does: the function returns, or the loop goes on. -/
inductive Step where
  | done (result : Option ℤ)
  | again (dt : GregorianDateTime)

/-- The minute and the hour are carried. -/
def carry (dt : GregorianDateTime) : GregorianDateTime :=
  let dt := if dt.minute > 59 then { dt with minute := dt.minute - 60, hour := dt.hour + 1 } else dt
  if dt.hour > 23 then { dt with hour := dt.hour - 24, day := dt.day + 1 } else dt

/-- The checks of the four bit fields, with a date that is normalized. -/
def checkFields (fromMs : ℤ) (fromDt dt : GregorianDateTime) : Step :=
  if !bitSet e.months dt.month then
    .again { dt with month := dt.month + 1, day := 1, hour := 0, minute := 0 }
  else if !e.matchesDay dt.day dt.weekday
    then .again { dt with day := dt.day + 1, hour := 0, minute := 0 }
  else if !bitSet e.hours dt.hour then .again { dt with hour := dt.hour + 1, minute := 0 }
  else if !bitSet e.minutes dt.minute then .again { dt with minute := dt.minute + 1 }
  else
    match e.resolveLocalMatch tz dt fromMs fromDt with
    | some r => if r ≤ maxEcmascriptTime then .done (some r)
      else .again { dt with minute := dt.minute + 1 }
    | none => .again { dt with minute := dt.minute + 1 }

def nextStep (fromMs : ℤ) (fromDt dt : GregorianDateTime) : Step :=
  if dt.year - fromDt.year ≤ 8 then
    let dt := carry dt
    let noonMs := gregorianDateTimeToMsUtc dt.year dt.month dt.day 12 0 0 0
    if noonMs > lastDayNoonMs then .done none
    else
      let n := msToGregorianDateTimeUtc noonMs
      e.checkFields tz fromMs fromDt
        { dt with year := n.year, month := n.month, day := n.day, weekday := n.weekday }
  else .done none

/-- The loop, for as many iterations as there is fuel. -/
def nextLoop (fromMs : ℤ) (fromDt : GregorianDateTime) : ℕ → GregorianDateTime → Option (Option ℤ)
  | 0, _ => none
  | fuel + 1, dt =>
    match e.nextStep tz fromMs fromDt dt with
    | .done result => some result
    | .again dt => nextLoop fromMs fromDt fuel dt

def next (fromMs : ℤ) (fuel : ℕ) : Option (Option ℤ) :=
  if |fromMs| > maxEcmascriptTime then some none
  else
    let fromDt := tz.msToGregorian fromMs
    e.nextLoop tz fromMs fromDt fuel { fromDt with minute := fromDt.minute + 1 }

end CronExpression

end Soup.Cron
