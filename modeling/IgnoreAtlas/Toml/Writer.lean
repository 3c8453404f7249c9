import IgnoreAtlas.Toml.Quoted

/-!
# Writing TOML

A text is written in the first of these ways that can spell it without an escape: between double
quotes, between single quotes, between three double quotes, between three single quotes. If none
can, it is written with escapes between three double quotes if it goes over several lines, and else
between double quotes. Between double quotes a tab is always escaped.

An array of at least two values has a line for each of them.
-/

namespace IgnoreAtlas.Toml

/-- The longest row of a character in a text; `row` of them were in front. -/
def longestRow (mark : Char) (row : Nat) : List Char → Nat
  | [] => row
  | c :: rest =>
    if c = mark then longestRow mark (row + 1) rest else max row (longestRow mark 0 rest)

/-- The text has a character that cannot be written out, not even over several lines. -/
def hasControl (text : List Char) : Bool := text.any fun c => !isPlain c && c ≠ '\n'

/-- Ways to write a text. -/
inductive Quoting
  | basic
  | literal
  | longBasic
  | longLiteral
  deriving DecidableEq

/-- The way in which a text is written. -/
def quotingOf (text : List Char) : Quoting :=
  let control := hasControl text
  let escape := text.contains '\\'
  let lines := text.contains '\n'
  if !control && !escape && !lines && longestRow '"' 0 text = 0 then .basic
  else if !control && !lines && longestRow '\'' 0 text = 0 then .literal
  else if !control && !escape && longestRow '"' 0 text ≤ 2 then .longBasic
  else if !control && longestRow '\'' 0 text ≤ 2 then .longLiteral
  else if lines then .longBasic
  else .basic

/-- A digit of sixteen. -/
def digit16 (n : Nat) : Char :=
  if n < 10 then Char.ofNat ('0'.toNat + n) else Char.ofNat ('A'.toNat + n - 10)

/-- The letter that stands behind a backslash for a character. -/
def escape? (c : Char) : Option Char :=
  if c = '\x08' then some 'b'
  else if c = '\t' then some 't'
  else if c = '\n' then some 'n'
  else if c = '\x0c' then some 'f'
  else if c = '\r' then some 'r'
  else if c = '\\' then some '\\'
  else none

/-- A character that is no quote between double quotes. -/
def escapeChar (c : Char) : List Char :=
  match escape? c with
  | some letter => ['\\', letter]
  | none =>
    if isPlain c then [c]
    else ['\\', 'u', '0', '0', digit16 (c.toNat / 16), digit16 (c.toNat % 16)]

/-- A text between double quotes. -/
def escapeBasic : List Char → List Char
  | [] => []
  | c :: rest => (if c = '"' then ['\\', '"'] else escapeChar c) ++ escapeBasic rest

/-- A text between three double quotes; `row` quotes stand in front. The third quote of a row is
escaped, and a line end is written out. -/
def escapeLong (row : Nat) : List Char → List Char
  | [] => []
  | c :: rest =>
    if c = '"' then
      if row = 2 then '\\' :: '"' :: escapeLong 0 rest else '"' :: escapeLong (row + 1) rest
    else if c = '\n' then '\n' :: escapeLong 0 rest
    else escapeChar c ++ escapeLong 0 rest

/-- The line end behind three opening quotes, which a text of several lines gets. -/
def opening (text : List Char) : List Char := if text.contains '\n' then ['\n'] else []

/-- A text as it is written. -/
def quoteChars (text : List Char) : List Char :=
  match quotingOf text with
  | .basic => '"' :: escapeBasic text ++ ['"']
  | .literal => '\'' :: text ++ ['\'']
  | .longBasic => ['"', '"', '"'] ++ opening text ++ escapeLong 0 text ++ ['"', '"', '"']
  | .longLiteral => ['\'', '\'', '\''] ++ opening text ++ text ++ ['\'', '\'', '\'']

/-- A text as it is written. -/
def quote (text : String) : String := String.ofList (quoteChars text.toList)

/-- An array of values that are written already. -/
def arrayText : List String → String
  | [] => "[]"
  | [item] => "[" ++ item ++ "]"
  | items => "[\n" ++ String.join (items.map fun item => "    " ++ item ++ ",\n") ++ "]"

/-- A truth value. -/
def truthText (value : Bool) : String := if value then "true" else "false"

/-- A line that gives a key a value. -/
def assignment (key value : String) : String := key ++ " = " ++ value ++ "\n"

end IgnoreAtlas.Toml
