import IgnoreAtlas.Calendar.Moment

/-!
# Layouts of times

A layout is text with directives: `%`, perhaps a mark for the padding (`-` none, `0` zeros, `_`
blanks), and a letter. A mark for the padding may stand only in front of a letter for a single
number. A text with anything else behind a `%` is no layout, and nothing can be shown with it.

Times are shown in Greenwich time.
-/

namespace IgnoreAtlas.Calendar

/-- How a number is filled up to its width. -/
inductive Padding
  | none
  | zeros
  | blanks
  deriving DecidableEq

/-- A number that a directive shows. -/
inductive Figure
  | year
  | century
  | yearOfCentury
  | weekYear
  | weekYearOfCentury
  | quarter
  | month
  | dayOfMonth
  | weekFromSunday
  | weekFromMonday
  | weekOfYear
  | sinceSunday
  | weekday
  | dayOfYear
  | hour
  | hour12
  | minute
  | second
  | nanos
  | timestamp
  deriving DecidableEq

/-- A piece of a layout. -/
inductive Piece
  | literal (char : Char)
  | figure (figure : Figure) (padding : Padding)
  | monthName
  | shortMonthName
  | dayName
  | shortDayName
  | upperHalf
  | lowerHalf
  /-- The fraction of the second behind a point; without a number of places, as short as it can be.
  -/
  | fraction (places : Option Nat)
  /-- The first digits of the fraction without a point. -/
  | fractionDigits (places : Nat)
  /-- A constant for Greenwich time. -/
  | zone (text : String)
  | standard
  deriving DecidableEq

namespace Piece

/-! ## Showing a piece -/

/-- The names of the months. -/
def monthNames : List String :=
  ["January", "February", "March", "April", "May", "June", "July", "August", "September", "October",
    "November", "December"]

/-- The names of the days, Sunday first. -/
def dayNames : List String :=
  ["Sunday", "Monday", "Tuesday", "Wednesday", "Thursday", "Friday", "Saturday"]

/-- The first three letters. -/
def shorten (name : String) : String := String.ofList (name.toList.take 3)

/-- A number with its sign in front of it, if it has one or one is asked for. -/
def signed (always : Bool) (number : Int) : String :=
  (if number < 0 then "-" else if always then "+" else "") ++ toString number.natAbs

/-- A number of any size, filled up to a width that counts the sign. -/
def wide (width : Nat) (padding : Padding) (always : Bool) (number : Int) : String :=
  match padding with
  | .none => signed always number
  | .blanks => Text.padLeft width (signed always number)
  | .zeros =>
    if number < 0 then "-" ++ Text.zeroPad (width - 1) number.natAbs
    else if always then "+" ++ Text.zeroPad (width - 1) number.natAbs
    else Text.zeroPad width number.natAbs

/-- A number of two digits. Tens beyond ninety go on in the characters behind `9`. -/
def two (padding : Padding) (number : Nat) : String :=
  let tens := number / 10
  let ones := Nat.digitChar (number % 10)
  if tens = 0 ∧ padding = .none then String.singleton ones
  else if tens = 0 ∧ padding = .blanks then String.ofList [' ', ones]
  else String.ofList [Char.ofNat ('0'.toNat + tens), ones]

/-- A year: four digits, and a sign when it is not between 0 and 9999. -/
def ofYear (padding : Padding) (year : Int) : String :=
  if 0 ≤ year ∧ year ≤ 9999 then
    if 1000 ≤ year then toString year.toNat else wide 4 padding false year
  else wide 5 padding true year

/-- The century of a year. Of numbers that need more than eight bits, the lowest eight are shown. -/
def centuryOf (year : Int) : Nat := (year / 100 % 256).toNat

/-- The number that a figure stands for. -/
def ofFigure (m : Moment) (padding : Padding) : Figure → String
  | .year => ofYear padding m.day.date.year
  | .century => two padding (centuryOf m.day.date.year)
  | .yearOfCentury => two padding (m.day.date.year % 100).toNat
  | .weekYear => ofYear padding m.day.weekYear
  | .weekYearOfCentury => two padding (m.day.weekYear % 100).toNat
  | .quarter => toString m.day.quarter
  | .month => two padding m.day.date.month
  | .dayOfMonth => two padding m.day.date.dayOfMonth
  | .weekFromSunday => two padding m.day.weekFromSunday
  | .weekFromMonday => two padding m.day.weekFromMonday
  | .weekOfYear => two padding m.day.weekOfYear
  | .sinceSunday => toString m.day.sinceSunday
  | .weekday => toString (m.day.sinceMonday + 1)
  | .dayOfYear => wide 3 padding false m.day.dayOfYear
  | .hour => two padding m.hour
  | .hour12 => two padding m.hour12
  | .minute => two padding m.minute
  | .second => two padding m.second
  | .nanos => wide 9 padding false m.fraction
  | .timestamp => wide 9 padding false m.seconds

/-- What a piece shows of a moment. -/
def text (m : Moment) : Piece → String
  | literal c => String.singleton c
  | figure f padding => ofFigure m padding f
  | monthName => monthNames.getD (m.day.date.month - 1) ""
  | shortMonthName => shorten (monthNames.getD (m.day.date.month - 1) "")
  | dayName => dayNames.getD m.day.sinceSunday ""
  | shortDayName => shorten (dayNames.getD m.day.sinceSunday "")
  | upperHalf => if m.isAfternoon then "PM" else "AM"
  | lowerHalf => if m.isAfternoon then "pm" else "am"
  | fraction Option.none => m.shortFraction
  | fraction (some places) => "." ++ m.fractionDigits places
  | fractionDigits places => m.fractionDigits places
  | zone text => text
  | standard => m.writtenIn "+00:00"

end Piece

namespace Layout

/-! ## Reading a layout -/

/-- The letters for a single number, with the padding each of them has by itself. -/
def figures : List (Char × Figure × Padding) :=
  [('Y', .year, .zeros), ('C', .century, .zeros), ('y', .yearOfCentury, .zeros),
    ('G', .weekYear, .zeros), ('g', .weekYearOfCentury, .zeros), ('q', .quarter, .none),
    ('m', .month, .zeros), ('d', .dayOfMonth, .zeros), ('e', .dayOfMonth, .blanks),
    ('U', .weekFromSunday, .zeros), ('W', .weekFromMonday, .zeros), ('V', .weekOfYear, .zeros),
    ('w', .sinceSunday, .none), ('u', .weekday, .none), ('j', .dayOfYear, .zeros),
    ('H', .hour, .zeros), ('k', .hour, .blanks), ('I', .hour12, .zeros), ('l', .hour12, .blanks),
    ('M', .minute, .zeros), ('S', .second, .zeros), ('f', .nanos, .zeros), ('s', .timestamp, .none)]

/-- Hour and minute. -/
def clock : List Piece := [.figure .hour .zeros, .literal ':', .figure .minute .zeros]

/-- Hour, minute and second. -/
def longClock : List Piece := clock ++ [.literal ':', .figure .second .zeros]

/-- Month, day, and the year in two digits. -/
def shortDate : List Piece :=
  [.figure .month .zeros, .literal '/', .figure .dayOfMonth .zeros, .literal '/',
    .figure .yearOfCentury .zeros]

/-- The letters for all else. -/
def words : List (Char × List Piece) :=
  [('A', [.dayName]), ('a', [.shortDayName]), ('B', [.monthName]), ('b', [.shortMonthName]),
    ('h', [.shortMonthName]), ('p', [.upperHalf]), ('P', [.lowerHalf]),
    ('D', shortDate), ('x', shortDate), ('R', clock), ('T', longClock), ('X', longClock),
    ('F', [.figure .year .zeros, .literal '-', .figure .month .zeros, .literal '-',
      .figure .dayOfMonth .zeros]),
    ('v', [.figure .dayOfMonth .blanks, .literal '-', .shortMonthName, .literal '-',
      .figure .year .zeros]),
    ('r', [.figure .hour12 .zeros, .literal ':', .figure .minute .zeros, .literal ':',
      .figure .second .zeros, .literal ' ', .upperHalf]),
    ('c', [.shortDayName, .literal ' ', .shortMonthName, .literal ' ', .figure .dayOfMonth .blanks,
      .literal ' '] ++ longClock ++ [.literal ' ', .figure .year .zeros]),
    ('z', [.zone "+0000"]), ('Z', [.zone "+00:00"]), ('+', [.standard]),
    ('n', [.literal '\n']), ('t', [.literal '\t']), ('%', [.literal '%'])]

/-- The digits that a number of places of the fraction can be. -/
def places? (c : Char) : Option Nat :=
  if c = '3' then some 3 else if c = '6' then some 6 else if c = '9' then some 9 else none

/-- The padding that a mark asks for. -/
def padding? (c : Char) : Option Padding :=
  if c = '-' then some .none else if c = '0' then some .zeros else if c = '_' then some .blanks
  else none

/-- The pieces for one letter. -/
def letter? (c : Char) : Option (List Piece) :=
  match figures.lookup c with
  | some (figure, padding) => some [.figure figure padding]
  | none => words.lookup c

/-- The pieces of a layout. -/
def parse? : List Char → Option (List Piece)
  | [] => some []
  | '%' :: ':' :: ':' :: ':' :: 'z' :: rest => (parse? rest).map (.zone "+00" :: ·)
  | '%' :: ':' :: ':' :: 'z' :: rest => (parse? rest).map (.zone "+00:00:00" :: ·)
  | '%' :: ':' :: 'z' :: rest => (parse? rest).map (.zone "+00:00" :: ·)
  | '%' :: '.' :: 'f' :: rest => (parse? rest).map (.fraction none :: ·)
  | '%' :: '.' :: c :: 'f' :: rest => do
    let places ← places? c
    (parse? rest).map (.fraction (some places) :: ·)
  | '%' :: c :: rest =>
    match padding? c, places? c, rest with
    | some padding, _, d :: rest => do
      let (figure, _) ← figures.lookup d
      (parse? rest).map (.figure figure padding :: ·)
    | none, some places, 'f' :: rest => (parse? rest).map (.fractionDigits places :: ·)
    | none, none, rest => do
      let pieces ← letter? c
      (parse? rest).map (pieces ++ ·)
    | _, _, _ => none
  | c :: rest => if c = '%' then none else (parse? rest).map (.literal c :: ·)

end Layout

/-- A moment shown with a layout; nothing when the text is no layout. -/
def Moment.format? (m : Moment) (layout : String) : Option String :=
  (Layout.parse? layout.toList).map fun pieces => String.join (pieces.map (Piece.text m))

end IgnoreAtlas.Calendar
