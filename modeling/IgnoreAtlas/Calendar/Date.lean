/-!
# Days

A day is a number: the days since the first of January 1970, on the Gregorian calendar carried on in
both directions. `Day.date` gives its year, month and day of the month, and `Day.ofDate` goes back.
Years are counted with a year zero, and weeks begin on Monday unless it is said otherwise.
-/

namespace IgnoreAtlas.Calendar

/-- A day, as the number of days since the first of January 1970. -/
structure Day where
  number : Int
  deriving DecidableEq

/-- A year, a month from one to twelve, and a day of the month from one on. -/
structure Date where
  year : Int
  month : Nat
  dayOfMonth : Nat
  deriving DecidableEq

/-- A year with a twenty-ninth of February. -/
def isLeap (year : Int) : Bool :=
  year % 4 == 0 && (year % 100 != 0 || year % 400 == 0)

/-- The first year that there is. -/
def firstYear : Int := -262143

/-- The last year that there is. -/
def lastYear : Int := 262142

/-- The year is one that there is. -/
def isYear (year : Int) : Bool := decide (firstYear ≤ year) && decide (year ≤ lastYear)

/-- The number of days of a month. -/
def daysInMonth (year : Int) (month : Nat) : Nat :=
  if month = 2 then (if isLeap year then 29 else 28)
  else if month = 4 ∨ month = 6 ∨ month = 9 ∨ month = 11 then 30
  else 31

namespace Date

/-- There is such a day. -/
def isValid (date : Date) : Bool :=
  1 ≤ date.month && date.month ≤ 12 &&
    1 ≤ date.dayOfMonth && date.dayOfMonth ≤ daysInMonth date.year date.month

end Date

namespace Day

/-- Days in four hundred years. -/
def daysPerEra : Int := 146097

/-- The first of March of the year zero is that many days before the day with number zero. -/
def epochShift : Int := 719468

/-- The day with that date. Years are taken to begin in March, so that the day added in a leap year
is the last one. -/
def ofDate (date : Date) : Day :=
  let year := if date.month ≤ 2 then date.year - 1 else date.year
  let month := (date.month + 9) % 12
  let dayOfYear : Int := (153 * month + 2) / 5 + date.dayOfMonth - 1
  ⟨365 * year + year / 4 - year / 100 + year / 400 + dayOfYear - epochShift⟩

/-- The date of a day. -/
def date (day : Day) : Date :=
  let shifted := day.number + epochShift
  let era := shifted / daysPerEra
  let dayOfEra := (shifted % daysPerEra).toNat
  let yearOfEra := (dayOfEra - dayOfEra / 1460 + dayOfEra / 36524 - dayOfEra / 146096) / 365
  let dayOfYear := dayOfEra - (365 * yearOfEra + yearOfEra / 4 - yearOfEra / 100)
  let month := (5 * dayOfYear + 2) / 153
  let year := yearOfEra + era * 400
  { year := if month < 10 then year else year + 1
    month := if month < 10 then month + 3 else month - 9
    dayOfMonth := dayOfYear - (153 * month + 2) / 5 + 1 }

/-- The day of the week: Sunday is zero. -/
def sinceSunday (day : Day) : Nat := ((day.number + 4) % 7).toNat

/-- The day of the week: Monday is zero. -/
def sinceMonday (day : Day) : Nat := ((day.number + 3) % 7).toNat

/-- The day of the year, from one on. -/
def dayOfYear (day : Day) : Nat :=
  (day.number - (ofDate ⟨day.date.year, 1, 1⟩).number).toNat + 1

/-- The week of the year; the days before the first Sunday are week zero. -/
def weekFromSunday (day : Day) : Nat := (day.dayOfYear + 6 - day.sinceSunday) / 7

/-- The week of the year; the days before the first Monday are week zero. -/
def weekFromMonday (day : Day) : Nat := (day.dayOfYear + 6 - day.sinceMonday) / 7

/-- The Thursday of the week of a day. A week belongs to the year of its Thursday. -/
def thursday (day : Day) : Day := ⟨day.number - day.sinceMonday + 3⟩

/-- The year that the week of a day belongs to. -/
def weekYear (day : Day) : Int := day.thursday.date.year

/-- The week in the year that it belongs to, from one on. -/
def weekOfYear (day : Day) : Nat := (day.thursday.dayOfYear - 1) / 7 + 1

/-- The quarter of the year, from one on. -/
def quarter (day : Day) : Nat := (day.date.month - 1) / 3 + 1

end Day

end IgnoreAtlas.Calendar
