import IgnoreAtlas.Calendar.Moment
import IgnoreAtlas.Text

/-!
# Reading moments

A moment is read from a date, one of the letters `T` and `t` or a blank, a time, and an offset from
Greenwich time. White space may stand around every number. Without a sign the year has up to four
digits, months to seconds have up to two; all digits of a fraction behind the ninth are dropped. The
offset is `Z`, `UTC`, or hours and minutes of two digits each behind a sign, less than a day
altogether. The sixtieth second is allowed in every minute.

Nothing but white space may follow.
-/

namespace IgnoreAtlas.Calendar

namespace Reading

/-- The value of a row of digits. -/
def valueOf (digits : List Char) : Nat :=
  digits.foldl (fun n c => n * 10 + (c.toNat - '0'.toNat)) 0

/-- A number of at least one and, if there is a bound, at most so many digits. -/
def number? (most : Option Nat) (input : List Char) : Option (Nat × List Char) :=
  let run := input.takeWhile Char.isDigit
  let digits := match most with
    | some most => run.take most
    | none => run
  if digits.isEmpty then none else some (valueOf digits, input.drop digits.length)

/-- A number of one or two digits, after white space. -/
def two? (input : List Char) : Option (Nat × List Char) := number? (some 2) (Text.trimStart input)

/-- A year, after white space. -/
def year? (input : List Char) : Option (Int × List Char) :=
  match Text.trimStart input with
  | '-' :: rest => (number? none rest).map fun (n, rest) => (-(n : Int), rest)
  | '+' :: rest => (number? none rest).map fun (n, rest) => ((n : Int), rest)
  | rest => (number? (some 4) rest).map fun (n, rest) => ((n : Int), rest)

/-- What is behind `mark`, after white space. -/
def mark? (mark : Char) (input : List Char) : Option (List Char) :=
  match Text.trimStart input with
  | c :: rest => if c = mark then some rest else none
  | [] => none

/-- A date. -/
def date? (input : List Char) : Option (Date × List Char) := do
  let (year, rest) ← year? input
  let (month, rest) ← two? (← mark? '-' rest)
  let (dayOfMonth, rest) ← two? (← mark? '-' rest)
  pure (⟨year, month, dayOfMonth⟩, rest)

/-- The fraction of a second in billionths, if there is one. -/
def fraction? (input : List Char) : Option (Nat × List Char) :=
  match input with
  | '.' :: rest => do
    let (n, behind) ← number? (some 9) rest
    pure (n * Nat.pow 10 (9 - (rest.length - behind.length)), behind.dropWhile Char.isDigit)
  | _ => some (0, input)

/-- The seconds since the beginning of the day, and the billionths. -/
def time? (input : List Char) : Option (Nat × Nat × List Char) := do
  let (hour, rest) ← two? input
  let (minute, rest) ← two? (← mark? ':' rest)
  let (second, rest) ← two? (← mark? ':' rest)
  let (nanos, rest) ← fraction? rest
  if hour ≤ 23 ∧ minute ≤ 59 ∧ second ≤ 60 then
    pure ((hour * 60 + minute) * 60 + min second 59,
      (if second = 60 then nanosPerSecond else 0) + nanos, rest)
  else none

/-- Two digits. -/
def pair? : List Char → Option (Nat × List Char)
  | a :: b :: rest => if a.isDigit && b.isDigit then some (valueOf [a, b], rest) else none
  | _ => none

/-- Hours and minutes in seconds, with colons or white space between them. -/
def shift? (input : List Char) : Option (Nat × List Char) := do
  let (hours, rest) ← pair? input
  let (minutes, rest) ← pair? (rest.dropWhile fun c => c == ':' || Text.isBlank c)
  if minutes ≤ 59 ∧ hours ≤ 23 then pure ((hours * 60 + minutes) * 60, rest) else none

/-- The letter in upper case. -/
def upper (c : Char) : Char := if 'a' ≤ c ∧ c ≤ 'z' then Char.ofNat (c.toNat - 32) else c

/-- An offset from Greenwich time in seconds. -/
def offset? (input : List Char) : Option (Int × List Char) :=
  if (input.take 3).map upper = ['U', 'T', 'C'] then some (0, input.drop 3)
  else
    match input with
    | 'Z' :: rest => some (0, rest)
    | 'z' :: rest => some (0, rest)
    | '+' :: rest => (shift? rest).map fun (n, rest) => ((n : Int), rest)
    | '-' :: rest => (shift? rest).map fun (n, rest) => (-(n : Int), rest)
    | '\u2212' :: rest => (shift? rest).map fun (n, rest) => (-(n : Int), rest)
    | _ => none

/-- What is behind the mark between date and time. -/
def separator? : List Char → Option (List Char)
  | c :: rest => if c = 'T' ∨ c = 't' ∨ c = ' ' then some rest else none
  | [] => none

end Reading

open Reading in
/-- The moment that a text names. -/
def Moment.ofText? (text : String) : Option Moment := do
  let (date, rest) ← date? text.toList
  let (seconds, nanos, rest) ← time? (← separator? rest)
  let (offset, rest) ← offset? (Text.trimStart rest)
  if date.isValid && isYear date.year && (Text.trimStart rest).isEmpty then
    Moment.ofNumbers? ((Day.ofDate date).number * secondsPerDay + seconds - offset) nanos
  else none

end IgnoreAtlas.Calendar
