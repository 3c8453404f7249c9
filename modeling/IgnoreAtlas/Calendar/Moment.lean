import IgnoreAtlas.Calendar.Date
import IgnoreAtlas.Text

/-!
# Moments

A moment is a number of seconds since the beginning of 1970, Greenwich time, and a number of
billionths. A second that is inserted at the end of a minute has no number of its own: it is the
second before it with a billion more billionths.

`Moment.written` is a moment in the form of RFC 3339. It has as many digits behind the point as are
needed: none, three, six or nine.
-/

namespace IgnoreAtlas.Calendar

/-- A moment in time. -/
structure Moment where
  seconds : Int
  nanos : Nat
  deriving DecidableEq

/-- Seconds in a day. -/
def secondsPerDay : Nat := 86400

/-- Billionths in a second. -/
def nanosPerSecond : Nat := 1000000000

/-- A number with its sign, zeros put between the two up to a width. -/
def signedPad (width : Nat) (number : Int) : String :=
  (if number < 0 then "-" else "+") ++ Text.zeroPad (width - 1) number.natAbs

/-- A year: four digits, or else a sign and at least four digits. -/
def yearText (year : Int) : String :=
  if 0 ≤ year ∧ year ≤ 9999 then Text.zeroPad 4 year.toNat else signedPad 5 year

namespace Moment

/-- The day of a moment. -/
def day (m : Moment) : Day := ⟨m.seconds / secondsPerDay⟩

/-- The seconds since the beginning of the day. -/
def secondOfDay (m : Moment) : Nat := (m.seconds % secondsPerDay).toNat

/-- The moment with these numbers, if its year is one that there is. Only the last second of a
minute has an inserted one behind it. -/
def ofNumbers? (seconds : Int) (nanos : Nat) : Option Moment :=
  let m : Moment := ⟨seconds, nanos⟩
  let most := if seconds % 60 = 59 then 2 * nanosPerSecond else nanosPerSecond
  if nanos < most ∧ isYear m.day.date.year then some m else none

/-- The hour, from zero to twenty-three. -/
def hour (m : Moment) : Nat := m.secondOfDay / 3600

/-- The hour on a clock of twelve hours. -/
def hour12 (m : Moment) : Nat := if m.hour % 12 = 0 then 12 else m.hour % 12

/-- The hour is in the second half of the day. -/
def isAfternoon (m : Moment) : Bool := decide (12 ≤ m.hour)

/-- The minute. -/
def minute (m : Moment) : Nat := m.secondOfDay / 60 % 60

/-- The second; an inserted one is the sixtieth. -/
def second (m : Moment) : Nat := m.secondOfDay % 60 + m.nanos / nanosPerSecond

/-- The billionths within the second. -/
def fraction (m : Moment) : Nat := m.nanos % nanosPerSecond

/-- The first `places` digits of the fraction. -/
def fractionDigits (m : Moment) (places : Nat) : String :=
  Text.zeroPad places (m.fraction / Nat.pow 10 (9 - places))

/-- The fraction behind a point, in as many groups of three digits as it needs. -/
def shortFraction (m : Moment) : String :=
  if m.fraction = 0 then ""
  else if m.fraction % 1000000 = 0 then "." ++ m.fractionDigits 3
  else if m.fraction % 1000 = 0 then "." ++ m.fractionDigits 6
  else "." ++ m.fractionDigits 9

/-- Year, month and day. -/
def dateText (m : Moment) : String :=
  let date := m.day.date
  yearText date.year ++ "-" ++ Text.zeroPad 2 date.month ++ "-" ++ Text.zeroPad 2 date.dayOfMonth

/-- Hour, minute and second. -/
def timeText (m : Moment) : String :=
  Text.zeroPad 2 m.hour ++ ":" ++ Text.zeroPad 2 m.minute ++ ":" ++ Text.zeroPad 2 m.second

/-- Date and time in the form of RFC 3339, with this word for the time zone. -/
def writtenIn (m : Moment) (zone : String) : String :=
  m.dateText ++ "T" ++ m.timeText ++ m.shortFraction ++ zone

/-- The moment in the form of RFC 3339. -/
def written (m : Moment) : String := m.writtenIn "Z"

end Moment

end IgnoreAtlas.Calendar
