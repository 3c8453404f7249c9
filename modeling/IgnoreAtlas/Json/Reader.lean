import IgnoreAtlas.Json.Basic

/-!
# Reading JSON

`Json.parse?` accepts one value with white space around it, and nothing else. Numbers may not begin
with a needless zero, and strings may not hold characters below U+0020. What spells no text is read
as well, see `Json.unspelled`.
-/

namespace IgnoreAtlas.Json

/-- White space between tokens. -/
def isSpace (c : Char) : Bool := c == ' ' || c == '\n' || c == '\t' || c == '\r'

/-- Without white space at the front. -/
def skipSpace (input : List Char) : List Char := input.dropWhile isSpace

/-- The value of a hexadecimal digit. -/
def hexValue? (c : Char) : Option Nat :=
  if '0' ≤ c ∧ c ≤ '9' then some (c.toNat - '0'.toNat)
  else if 'a' ≤ c ∧ c ≤ 'f' then some (c.toNat - 'a'.toNat + 10)
  else if 'A' ≤ c ∧ c ≤ 'F' then some (c.toNat - 'A'.toNat + 10)
  else none

/-- The value of four hexadecimal digits. -/
def hexWord? (a b c d : Char) : Option Nat := do
  let a ← hexValue? a
  let b ← hexValue? b
  let c ← hexValue? c
  let d ← hexValue? d
  pure (((a * 16 + b) * 16 + c) * 16 + d)

/-- The first half of a surrogate pair. -/
def isHighHalf (n : Nat) : Bool := decide (0xD800 ≤ n) && decide (n ≤ 0xDBFF)

/-- The second half of a surrogate pair. -/
def isLowHalf (n : Nat) : Bool := decide (0xDC00 ≤ n) && decide (n ≤ 0xDFFF)

/-- What has been read of a string: its characters, last first, and an open first half of a
surrogate pair. Once `sound` is lost the string spells no text. -/
structure Spelling where
  done : List Char := []
  half : Option Nat := none
  sound : Bool := true

namespace Spelling

/-- One more character. -/
def push (s : Spelling) (c : Char) : Spelling :=
  ⟨c :: s.done, none, s.sound && s.half.isNone⟩

/-- One more unit of sixteen bits. -/
def pushUnit (s : Spelling) (unit : Nat) : Spelling :=
  match s.half with
  | some high =>
    if isLowHalf unit then
      ⟨Char.ofNat (0x10000 + (high - 0xD800) * 0x400 + (unit - 0xDC00)) :: s.done, none, s.sound⟩
    else { s with sound := false }
  | none =>
    if isHighHalf unit then { s with half := some unit }
    else if isLowHalf unit then { s with sound := false }
    else s.push (Char.ofNat unit)

/-- The text, if there is one. -/
def text? (s : Spelling) : Option String :=
  if s.sound && s.half.isNone then some (String.ofList s.done.reverse) else none

end Spelling

/-- The character for a letter behind a backslash. -/
def escaped? (c : Char) : Option Char :=
  match c with
  | '"' => some '"'
  | '\\' => some '\\'
  | '/' => some '/'
  | 'b' => some (Char.ofNat 8)
  | 'f' => some (Char.ofNat 12)
  | 'n' => some '\n'
  | 'r' => some '\r'
  | 't' => some '\t'
  | _ => none

/-- The rest of a string, and what is behind it. -/
def readString (s : Spelling) : List Char → Option (Spelling × List Char)
  | [] => none
  | '"' :: rest => some (s, rest)
  | '\\' :: 'u' :: a :: b :: c :: d :: rest =>
    match hexWord? a b c d with
    | some unit => readString (s.pushUnit unit) rest
    | none => none
  | '\\' :: c :: rest =>
    match escaped? c with
    | some e => readString (s.push e) rest
    | none => none
  | c :: rest => if c = '\\' ∨ c.toNat < 32 then none else readString (s.push c) rest

/-- The digits at the front, and what is behind them. -/
def takeDigits (input : List Char) : List Char × List Char :=
  (input.takeWhile Char.isDigit, input.dropWhile Char.isDigit)

/-- The value of a row of digits. -/
def digitsValue (digits : List Char) : Nat :=
  digits.foldl (fun n c => n * 10 + (c.toNat - '0'.toNat)) 0

/-- Without a sign at the front. -/
def dropSign : List Char → List Char
  | '+' :: rest => rest
  | '-' :: rest => rest
  | rest => rest

/-- A fraction, if there is one: a point needs a digit behind it. -/
def readFraction? : List Char → Option (List Char)
  | '.' :: rest =>
    match takeDigits rest with
    | ([], _) => none
    | (_, rest) => some rest
  | rest => some rest

/-- An exponent, if there is one: it needs a digit. -/
def readExponent? (input : List Char) : Option (List Char) :=
  match input with
  | c :: rest =>
    if c = 'e' ∨ c = 'E' then
      match takeDigits (dropSign rest) with
      | ([], _) => none
      | (_, rest) => some rest
    else some input
  | [] => some []

/-- A number behind an optional minus sign. -/
def readNumber? (negative : Bool) (input : List Char) : Option (Json × List Char) := do
  let (digits, rest) := takeDigits input
  if digits.isEmpty || (digits.head? == some '0' && digits.length != 1) then none
  else
    let rest' ← readExponent? (← readFraction? rest)
    let magnitude := digitsValue digits
    let literal := (if negative then "-" else "") ++
      String.ofList (input.take (input.length - rest'.length))
    let value :=
      if rest'.length != rest.length || (negative && magnitude == 0) then Json.decimal literal
      else if negative then .integer (-magnitude)
      else .integer magnitude
    pure (value, rest')

/-- What is behind `word`, if it is at the front. -/
def dropWord? (word input : List Char) : Option (List Char) :=
  if word.isPrefixOf input then some (input.drop word.length) else none

/-- An object, if all names of its fields are texts. -/
def ofFields (fields : List (Option String × Json)) : Json :=
  match fields.mapM fun (name, value) => name.map (·, value) with
  | some fields => .object fields
  | none => .unspelled

mutual

/-- A value at the front, after white space. Each step into the value uses one unit of `fuel`. -/
def readValue : Nat → List Char → Option (Json × List Char)
  | 0, _ => none
  | fuel + 1, input =>
    match skipSpace input with
    | '"' :: rest => do
      let (s, rest) ← readString {} rest
      pure ((s.text?.map Json.string).getD .unspelled, rest)
    | '[' :: rest =>
      match skipSpace rest with
      | ']' :: rest => some (.array [], rest)
      | rest => do
        let (items, rest) ← readItems fuel rest
        pure (.array items, rest)
    | '\x7b' :: rest =>
      match skipSpace rest with
      | '\x7d' :: rest => some (.object [], rest)
      | rest => do
        let (fields, rest) ← readFields fuel rest
        pure (ofFields fields, rest)
    | '-' :: rest => readNumber? true rest
    | 'n' :: rest => (dropWord? ['u', 'l', 'l'] rest).map (.null, ·)
    | 't' :: rest => (dropWord? ['r', 'u', 'e'] rest).map (.bool true, ·)
    | 'f' :: rest => (dropWord? ['a', 'l', 's', 'e'] rest).map (.bool false, ·)
    | rest => readNumber? false rest

/-- The items of an array, to its end. -/
def readItems : Nat → List Char → Option (List Json × List Char)
  | 0, _ => none
  | fuel + 1, input => do
    let (item, rest) ← readValue fuel input
    match skipSpace rest with
    | ']' :: rest => pure ([item], rest)
    | ',' :: rest =>
      let (items, rest) ← readItems fuel rest
      pure (item :: items, rest)
    | _ => none

/-- The fields of an object, to its end. -/
def readFields : Nat → List Char → Option (List (Option String × Json) × List Char)
  | 0, _ => none
  | fuel + 1, input =>
    match skipSpace input with
    | '"' :: rest => do
      let (s, rest) ← readString {} rest
      let name := s.text?
      match skipSpace rest with
      | ':' :: rest =>
        let (value, rest) ← readValue fuel rest
        match skipSpace rest with
        | '\x7d' :: rest => pure ([(name, value)], rest)
        | ',' :: rest =>
          let (fields, rest) ← readFields fuel rest
          pure ((name, value) :: fields, rest)
        | _ => none
      | _ => none
    | _ => none

end

/-- The value that a text spells. -/
def parse? (input : String) : Option Json :=
  let chars := input.toList
  match readValue (2 * chars.length + 2) chars with
  | some (value, rest) => if (skipSpace rest).isEmpty then some value else none
  | none => none

end IgnoreAtlas.Json
