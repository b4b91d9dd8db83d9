import QueryBridge.Decimal.Reading
import QueryBridge.Text.Padded

/-!
# Days, dates and times

Days are counted from 1970-01-01 and dates follow the Gregorian calendar in both directions
without end; the texts cover the years from -262143 to 262142. Within an era of four hundred
years the year starts in March, so that a leap day is the last day of its year. A point in time is a date with
a time of the day.
-/

namespace QueryBridge

/-- Whether an integer fits a 32 bit word with a sign. -/
def isShortSigned (n : Int) : Bool := -2147483648 ≤ n && n ≤ 2147483647

/-- Whether an integer fits a 32 bit word without sign. -/
def isShortUnsigned (n : Int) : Bool := 0 ≤ n && n ≤ 4294967295

/-- A date of the Gregorian calendar. -/
structure Date where
  /-- The year; the year before 1 is 0. -/
  year : Int
  /-- The month, from 1 to 12. -/
  month : Nat
  /-- The day of the month, from 1. -/
  day : Nat
deriving DecidableEq, Repr

namespace Date

/-- How many days four hundred years have. -/
def daysPerEra : Nat := 146097

/-- How many days lie between 0000-03-01 and 1970-01-01. -/
def epochDays : Int := 719468

/-- The date of a day. -/
def ofDays (days : Int) : Date :=
  let shifted := days + epochDays
  let era := shifted / daysPerEra
  let dayOfEra := (shifted % daysPerEra).toNat
  let yearOfEra := (dayOfEra - dayOfEra / 1460 + dayOfEra / 36524 - dayOfEra / 146096) / 365
  let dayOfYear := dayOfEra - (365 * yearOfEra + yearOfEra / 4 - yearOfEra / 100)
  let march := (5 * dayOfYear + 2) / 153
  let day := dayOfYear - (153 * march + 2) / 5 + 1
  let month := if march < 10 then march + 3 else march - 9
  let year := era * 400 + yearOfEra + (if march < 10 then 0 else 1)
  ⟨year, month, day⟩

/-- The least year that has a text. -/
def firstYear : Int := -262143

/-- The greatest year that has a text. -/
def lastYear : Int := 262142

/-- A year in four digits; outside 0 to 9999 it has a sign and at least four digits. -/
def yearText (year : Int) : Text :=
  if year < 0 then Byte.hyphen :: Text.padded 4 year.natAbs
  else if 9999 < year then Byte.plus :: Text.padded 4 year.natAbs
  else Text.padded 4 year.natAbs

/-- A date as year, month and day. -/
def text (date : Date) : Text :=
  yearText date.year ++ "-" ++ Text.padded 2 date.month ++ "-" ++ Text.padded 2 date.day

/-- How many days lie between the day before 0001-01-01 and 1970-01-01. -/
def commonEraDays : Int := 719163

/-- The date of a day that is counted from 0001-01-01, which is day 1; none if its year has no
text. -/
def ofCommonEra? (days : Int) : Option Date :=
  let date := ofDays (days - commonEraDays)
  if firstYear ≤ date.year && date.year ≤ lastYear then some date else none

/-- The text of a day; none if its year has none. The day counted from 0001-01-01 has to fit a
word. -/
def textOfDays? (days : Int) : Option Text :=
  let days := days + commonEraDays
  if isShortSigned days then (ofCommonEra? days).map text else none

end Date

/-- The units of time that the engine counts in. -/
inductive TimeUnit where
  /-- Seconds. -/
  | second
  /-- Thousandths of a second. -/
  | millisecond
  /-- Millionths of a second. -/
  | microsecond
  /-- Billionths of a second. -/
  | nanosecond
deriving DecidableEq, Repr

namespace TimeUnit

/-- How many nanoseconds a unit has. -/
def nanos : TimeUnit → Nat
  | .second => 1000000000
  | .millisecond => 1000000
  | .microsecond => 1000
  | .nanosecond => 1

end TimeUnit

/-- How many nanoseconds a second has. -/
def nanosPerSecond : Nat := 1000000000

/-- How many seconds a day has. -/
def secondsPerDay : Nat := 86400

/-- How many nanoseconds a day has. -/
def nanosPerDay : Nat := secondsPerDay * nanosPerSecond

/-- A time of the day. -/
structure Clock where
  /-- The second of the day. -/
  second : Nat
  /-- The nanosecond of the second. -/
  nanos : Nat
  second_lt : second < secondsPerDay
  nanos_lt : nanos < nanosPerSecond
deriving DecidableEq, Repr

namespace Clock

/-- The time of the day at a second; none outside the day. -/
def ofSecond? (second nanos : Nat) : Option Clock :=
  if h : second < secondsPerDay ∧ nanos < nanosPerSecond then some ⟨second, nanos, h.1, h.2⟩
  else none

/-- Hours, minutes and seconds. -/
def text (clock : Clock) : Text :=
  Text.padded 2 (clock.second / 3600) ++ ":" ++ Text.padded 2 (clock.second / 60 % 60) ++ ":" ++
    Text.padded 2 (clock.second % 60)

/-- The milliseconds of the second, cut off after three places. -/
def milliText (clock : Clock) : Text := "." ++ Text.padded 3 (clock.nanos / 1000000)

end Clock

/-- A point in time. -/
structure Instant where
  /-- The date. -/
  date : Date
  /-- The time of the day. -/
  clock : Clock
deriving DecidableEq, Repr

namespace Instant

/-- The point in time some seconds after the start of 1970, and nanoseconds after the second; none
if the year has no text. The day counted from 0001-01-01 has to fit a word. -/
def ofSeconds? (seconds : Int) (nanos : Nat) : Option Instant := do
  let days := seconds / secondsPerDay + Date.commonEraDays
  guard (isShortSigned days)
  let date ← Date.ofCommonEra? days
  let clock ← Clock.ofSecond? (seconds % secondsPerDay).toNat nanos
  return ⟨date, clock⟩

/-- Date and time with milliseconds, in UTC. -/
def text (instant : Instant) : Text :=
  instant.date.text ++ "T" ++ instant.clock.text ++ instant.clock.milliText ++ "Z"

end Instant

/-- A count of units since the start of 1970 as a point in time; none if its year has no text. The
seconds are rounded down, and have to fit a word. -/
def timestampText? (unit : TimeUnit) (count : Int) : Option Text := do
  let nanos := count * unit.nanos
  let seconds := nanos / nanosPerSecond
  guard (isSigned seconds)
  let instant ← Instant.ofSeconds? seconds (nanos % nanosPerSecond).toNat
  return instant.text

/-- A count of units since midnight as a time of the day, with milliseconds unless it is a whole
second; none outside the day. Seconds and fraction are rounded towards zero, and have to fit
words without sign. -/
def timeOfDayText? (unit : TimeUnit) (count : Int) : Option Text := do
  let nanos := count * unit.nanos
  let seconds := nanos.tdiv nanosPerSecond
  let fraction := nanos.tmod nanosPerSecond
  guard (isShortUnsigned seconds && isShortUnsigned fraction)
  let clock ← Clock.ofSecond? seconds.toNat fraction.toNat
  return clock.text ++ Text.when (fraction != 0) clock.milliText

end QueryBridge
