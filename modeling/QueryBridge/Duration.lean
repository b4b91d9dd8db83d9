import QueryBridge.Calendar

/-!
# Durations

An interval of months, days and nanoseconds is written with a letter after each component that
is not zero: years and months, days, and after T hours, minutes and seconds. A component
carries its own sign, and the sign of the nanoseconds goes to each component of the time.
-/

namespace QueryBridge

/-- An interval of time. Its three parts are independent of each other. -/
structure Interval where
  /-- The months. -/
  months : Int
  /-- The days. -/
  days : Int
  /-- The nanoseconds. -/
  nanos : Int
deriving DecidableEq, Repr

namespace Interval

/-- A component with its letter, unless it is zero. -/
def component (n : Int) (letter : Text) : Text := Text.when (n != 0) (Text.ofInt n ++ letter)

/-- A fraction of a second without zeros at its end, unless it is zero. -/
def fractionText (nanos : Nat) : Text :=
  let digits := ((Text.padded 9 nanos).reverse.dropWhile (· == Byte.zero)).reverse
  Text.when (nanos != 0) ("." ++ digits)

/-- The components of the time, each with the given sign. -/
def timeText (sign : Text) (nanos : Nat) : Text :=
  let hours := nanos / (3600 * nanosPerSecond)
  let minutes := nanos / (60 * nanosPerSecond) % 60
  let seconds := nanos / nanosPerSecond % 60
  let fraction := nanos % nanosPerSecond
  Text.when (hours != 0) (sign ++ Text.ofNat hours ++ "H") ++
    Text.when (minutes != 0) (sign ++ Text.ofNat minutes ++ "M") ++
    Text.when (seconds != 0 || fraction != 0)
      (sign ++ Text.ofNat seconds ++ fractionText fraction ++ "S")

/-- The text of an interval. An interval of nothing has zero seconds. -/
def text (interval : Interval) : Text :=
  let sign := Text.when (interval.nanos < 0) "-"
  let date := component (interval.months.tdiv 12) "Y" ++ component (interval.months.tmod 12) "M"
    ++ component interval.days "D"
  let time := Text.when (interval.nanos != 0) ("T" ++ timeText sign interval.nanos.natAbs)
  if date.isEmpty && time.isEmpty then "PT0S" else "P" ++ date ++ time

end Interval

end QueryBridge
