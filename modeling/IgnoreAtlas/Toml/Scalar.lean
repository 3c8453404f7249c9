import IgnoreAtlas.Number
import IgnoreAtlas.Toml.Basic
import IgnoreAtlas.Toml.Quoted

/-!
# Numbers, truth values, dates and times of TOML

All of these are words without blanks, but for the blank that may stand between a date and a time. A
word is looked at as a whole. Whole numbers have 64 bits and a sign; a number with a fraction must
not be too large to be told from infinity.
-/

namespace IgnoreAtlas.Toml

/-- A character of a word. -/
def isWordChar (c : Char) : Bool :=
  c.isAlphanum || c = '+' || c = '-' || c = '_' || c = '.' || c = ':'

/-- Digits, with single low lines between them. -/
def isRow (isDigit : Char → Bool) : List Char → Bool
  | [] => false
  | [c] => isDigit c
  | c :: '_' :: rest => isDigit c && isRow isDigit rest
  | c :: rest => isDigit c && isRow isDigit rest

/-- The value of a row of digits. -/
def rowValue (base : Nat) (row : List Char) : Nat :=
  row.foldl (fun n c => n * base + (digit16? c).getD 0) 0

/-- Without the low lines. -/
def bare (row : List Char) : List Char := row.filter (· ≠ '_')

/-- The sign of a word and what is behind it. -/
def splitSign : List Char → Bool × List Char
  | '-' :: rest => (true, rest)
  | '+' :: rest => (false, rest)
  | word => (false, word)

/-- Decimal digits without a needless zero in front. -/
def isDecimal (row : List Char) : Bool :=
  isRow Char.isDigit row && (row.length = 1 || row.head? ≠ some '0')

/-- Positive whole numbers end below this one. -/
def integerBound : Nat := values63

/-- A whole number with digits of another base. -/
def based? (base : Nat) (isDigit : Char → Bool) (row : List Char) : Option Int :=
  let value := rowValue base (bare row)
  if isRow isDigit row && decide (value < integerBound) then some value else none

/-- A whole number. -/
def integer? (word : List Char) : Option Int :=
  match word with
  | '0' :: 'x' :: row => based? 16 (fun c => (digit16? c).isSome) row
  | '0' :: 'o' :: row => based? 8 (fun c => '0' ≤ c && c ≤ '7') row
  | '0' :: 'b' :: row => based? 2 (fun c => c = '0' || c = '1') row
  | _ =>
    let (negative, row) := splitSign word
    let value := rowValue 10 (bare row)
    if !isDecimal row then none
    else if negative then
      if value ≤ integerBound then some (-value) else none
    else if value < integerBound then some value
    else none

/-- A character of a row of digits. -/
def isRowChar (c : Char) : Bool := c.isDigit || c = '_'

/-- An exponent; without one the number zero. -/
def exponent? : List Char → Option Int
  | [] => some 0
  | c :: rest =>
    let (negative, row) := splitSign rest
    if (c = 'e' || c = 'E') && isRow Char.isDigit row then
      some (if negative then -(rowValue 10 (bare row)) else rowValue 10 (bare row))
    else none

/-- The least number that counts as infinite: halfway between the largest number of 53 significant
bits and the next power of two. -/
def infiniteFrom : Nat := Nat.pow 2 1024 - Nat.pow 2 970

/-- The number `digits * 10 ^ scale` counts as infinite. -/
def isInfinite (digits : Nat) (scale : Int) : Bool :=
  let size := (toString digits).length + scale
  if digits = 0 ∨ size < 300 then false
  else if 320 < size then true
  else if 0 ≤ scale then infiniteFrom ≤ digits * Nat.pow 10 scale.toNat
  else infiniteFrom * Nat.pow 10 (-scale).toNat ≤ digits

/-- A number with a fraction, an exponent or both, or one of the special numbers. -/
def isFloat (word : List Char) : Bool :=
  let (negative, body) := splitSign word
  if body = ['i', 'n', 'f'] ∨ body = ['n', 'a', 'n'] then true
  else
    let whole := body.takeWhile isRowChar
    let behind := body.dropWhile isRowChar
    let fits (fraction : List Char) (exponent : Option Int) : Bool :=
      match exponent with
      | some e =>
        let digits := rowValue 10 (bare (whole ++ fraction))
        negative || !isInfinite digits (e - (bare fraction).length)
      | none => false
    isDecimal whole &&
      match behind with
      | [] => false
      | '.' :: rest =>
        let fraction := rest.takeWhile isRowChar
        isRow Char.isDigit fraction && fits fraction (exponent? (rest.dropWhile isRowChar))
      | rest => fits [] (exponent? rest)

/-- The value of digits, if that is what they are. -/
def digits? (digits : List Char) : Option Nat :=
  if digits.all Char.isDigit then some (rowValue 10 digits) else none

/-- The days of a month. -/
def daysOf (year month : Nat) : Nat :=
  if month = 2 then
    (if year % 4 = 0 ∧ (year % 100 ≠ 0 ∨ year % 400 = 0) then 29 else 28)
  else if month = 4 ∨ month = 6 ∨ month = 9 ∨ month = 11 then 30
  else 31

/-- What is behind a date. -/
def afterDate? : List Char → Option (List Char)
  | a :: b :: c :: d :: '-' :: e :: f :: '-' :: g :: h :: rest => do
    let year ← digits? [a, b, c, d]
    let month ← digits? [e, f]
    let day ← digits? [g, h]
    if 1 ≤ month ∧ month ≤ 12 ∧ 1 ≤ day ∧ day ≤ daysOf year month then some rest else none
  | _ => none

/-- What is behind a time. -/
def afterTime? : List Char → Option (List Char)
  | a :: b :: ':' :: c :: d :: ':' :: e :: f :: rest => do
    let hour ← digits? [a, b]
    let minute ← digits? [c, d]
    let second ← digits? [e, f]
    if hour ≤ 23 ∧ minute ≤ 59 ∧ second ≤ 60 then
      match rest with
      | '.' :: fraction =>
        if (fraction.takeWhile Char.isDigit).isEmpty then none
        else some (fraction.dropWhile Char.isDigit)
      | _ => some rest
    else none
  | _ => none

/-- Nothing, or an offset from Greenwich time. -/
def isOffset : List Char → Bool
  | [] => true
  | ['Z'] => true
  | ['z'] => true
  | [sign, a, b, ':', c, d] =>
    (sign = '+' || sign = '-') &&
      match digits? [a, b], digits? [c, d] with
      | some hours, some minutes => hours ≤ 23 && minutes ≤ 59
      | _, _ => false
  | _ => false

/-- A time that may have an offset. -/
def isTimeOfDate (word : List Char) : Bool :=
  match afterTime? word with
  | some rest => isOffset rest
  | none => false

/-- A date, a time, or a date and a time. -/
def isTime (word : List Char) : Bool :=
  match afterDate? word with
  | some [] => true
  | some (mark :: rest) => (mark = 'T' || mark = 't') && isTimeOfDate rest
  | none => afterTime? word == some []

/-- What a word means. -/
def word? (word : List Char) : Option Toml :=
  if word = ['t', 'r', 'u', 'e'] then some (.truth true)
  else if word = ['f', 'a', 'l', 's', 'e'] then some (.truth false)
  else
    match integer? word with
    | some value => some (.integer value)
    | none =>
      if isFloat word then some .float
      else if isTime word then some .time
      else none

/-- What begins behind a date and a blank is a time. -/
def timeFollows : List Char → Bool
  | ' ' :: a :: b :: ':' :: _ => a.isDigit && b.isDigit
  | _ => false

/-- A value that is a word. -/
def readWord (input : List Char) : Option (Toml × List Char) :=
  let word := input.takeWhile isWordChar
  let rest := input.dropWhile isWordChar
  if afterDate? word = some [] ∧ timeFollows rest then
    if isTimeOfDate ((rest.drop 1).takeWhile isWordChar) then
      some (.time, (rest.drop 1).dropWhile isWordChar)
    else none
  else (word? word).map (·, rest)

end IgnoreAtlas.Toml
