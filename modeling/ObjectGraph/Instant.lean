import ObjectGraph.Number.Decimal

/-!
# `Instant` — points in time

A point in time is a number of seconds from the beginning of 1970, in universal time, and
nanoseconds past it. Nanoseconds beyond a thousand million stand for a leap second: the instant is
then inside second 60 of its minute. Years run from -262143 to 262142.

Contents:
* `Calendar.daysOf`, `Calendar.dateOf`: the Gregorian calendar, days counted from 1970-01-01;
* `Instant`, `ofSeconds?`, `ofFloat?`, `seconds`;
* `Instant.text`, its RFC 3339 text.
-/

namespace ObjectGraph

namespace Calendar

/-- True of leap years. -/
def isLeap (year : Int) : Bool := year % 4 == 0 && (year % 100 != 0 || year % 400 == 0)

/-- How many days a month has. -/
def monthLength (year : Int) (month : Nat) : Nat :=
  if month = 2 then (if isLeap year then 29 else 28)
  else if month = 4 ∨ month = 6 ∨ month = 9 ∨ month = 11 then 30
  else 31

/-- The day exists. -/
def isDate (year : Int) (month day : Nat) : Bool :=
  1 ≤ month && month ≤ 12 && 1 ≤ day && day ≤ monthLength year month

/-- Days from 1970-01-01 to a date. Years are taken to begin in March, so that the leap day ends
them, in eras of 400 years. -/
def daysOf (year : Int) (month day : Nat) : Int :=
  let y := if month ≤ 2 then year - 1 else year
  let era := y / 400
  let yearOfEra := y - era * 400
  let fromMarch : Int := ((month + 9) % 12 : Nat)
  -- any five months in a row from March on have 153 days
  let dayOfYear := (153 * fromMarch + 2) / 5 + day - 1
  let dayOfEra := yearOfEra * 365 + yearOfEra / 4 - yearOfEra / 100 + dayOfYear
  era * 146097 + dayOfEra - 719468

/-- The date some days after 1970-01-01: year, month and day. -/
def dateOf (days : Int) : Int × Nat × Nat :=
  let z := days + 719468
  let era := z / 146097
  let dayOfEra := z - era * 146097
  let yearOfEra := (dayOfEra - dayOfEra / 1460 + dayOfEra / 36524 - dayOfEra / 146096) / 365
  let dayOfYear := dayOfEra - (365 * yearOfEra + yearOfEra / 4 - yearOfEra / 100)
  let fromMarch := (5 * dayOfYear + 2) / 153
  let day := dayOfYear - (153 * fromMarch + 2) / 5 + 1
  let month := if fromMarch < 10 then fromMarch + 3 else fromMarch - 9
  let year := yearOfEra + era * 400 + (if month ≤ 2 then 1 else 0)
  (year, month.toNat, day.toNat)

/-- The first year of the calendar. -/
def firstYear : Int := -262143

/-- The last year of the calendar. -/
def lastYear : Int := 262142

end Calendar

/-- A point in time: seconds from the beginning of 1970, and nanoseconds. -/
structure Instant where
  seconds : Int
  nanos : Nat
  deriving DecidableEq, Repr

namespace Instant

/-- The instant some seconds and nanoseconds from the beginning of 1970, if the calendar has it. -/
def ofSeconds? (seconds : Int) (nanos : Nat) : Option Instant :=
  if Calendar.daysOf Calendar.firstYear 1 1 * 86400 ≤ seconds
      ∧ seconds < Calendar.daysOf (Calendar.lastYear + 1) 1 1 * 86400 then
    some ⟨seconds, nanos⟩
  else none

/-- The instant a floating point number of seconds from the beginning of 1970; a negative fraction
counts as none. -/
def ofFloat? (x : Binary64) : Option Instant :=
  let giga := (Binary64.ofRatio? false 1000000000 1).getD (Binary64.zero false)
  let nanos := match x.fract.mul? giga with
    | some y => y.truncate.toNat
    | none => 0
  ofSeconds? x.truncate nanos

/-- A number in at least `width` digits. -/
def padded (width n : Nat) : List Char :=
  let ds := Nat.toDigits 10 n
  List.replicate (width - ds.length) '0' ++ ds

/-- The text of a year: four digits, and a sign and at least four digits outside 0 to 9999. -/
def yearText (year : Int) : List Char :=
  if 0 ≤ year ∧ year ≤ 9999 then padded 4 year.toNat
  else (if year < 0 then '-' else '+') :: padded 4 year.natAbs

/-- The text of a fraction of a second: nothing, or three, six or nine digits as needed. -/
def fractionText (nanos : Nat) : List Char :=
  if nanos = 0 then []
  else if nanos % 1000000 = 0 then '.' :: padded 3 (nanos / 1000000)
  else if nanos % 1000 = 0 then '.' :: padded 6 (nanos / 1000)
  else '.' :: padded 9 nanos

/-- The RFC 3339 text of an instant, in universal time. -/
def text (t : Instant) : String :=
  let (year, month, day) := Calendar.dateOf (t.seconds / 86400)
  let inDay := (t.seconds % 86400).toNat
  -- a leap second shows as second 60
  let leap := t.nanos / 1000000000
  String.ofList <|
    yearText year ++ '-' :: padded 2 month ++ '-' :: padded 2 day ++ 'T'
      :: padded 2 (inDay / 3600) ++ ':' :: padded 2 (inDay / 60 % 60)
      ++ ':' :: padded 2 (inDay % 60 + leap) ++ fractionText (t.nanos % 1000000000) ++ ['Z']

end Instant

end ObjectGraph
