/-!
# Strings of TOML

A string is written in one of four ways: in double or in single quotes, and with one or three of
them. Between single quotes every character stands for itself; between double quotes a backslash
begins an escape. A string with three quotes may go over several lines, and a line end right behind
the opening quotes is no part of it.

The readers begin behind the opening quotes and answer with the text and what is behind the closing
quotes. Control characters other than the tab may not be written out.
-/

namespace IgnoreAtlas.Toml

/-- A character that may be written out: a tab, or no control character. -/
def isPlain (c : Char) : Bool := c = '\t' || (32 ≤ c.toNat && c.toNat ≠ 127)

/-- The value of a hexadecimal digit. -/
def digit16? (c : Char) : Option Nat :=
  if '0' ≤ c ∧ c ≤ '9' then some (c.toNat - '0'.toNat)
  else if 'a' ≤ c ∧ c ≤ 'f' then some (c.toNat - 'a'.toNat + 10)
  else if 'A' ≤ c ∧ c ≤ 'F' then some (c.toNat - 'A'.toNat + 10)
  else none

/-- The value of a row of hexadecimal digits. -/
def value16? (digits : List Char) : Option Nat :=
  digits.foldlM (fun n c => (digit16? c).map (n * 16 + ·)) 0

/-- The character with that number. -/
def scalar? (n : Nat) : Option Char := if n.isValidChar then some (Char.ofNat n) else none

/-- The character that stands behind a backslash for another one. -/
def unescape? (c : Char) : Option Char :=
  if c = 'b' then some '\x08'
  else if c = 't' then some '\t'
  else if c = 'n' then some '\n'
  else if c = 'f' then some '\x0c'
  else if c = 'r' then some '\r'
  else if c = '"' then some '"'
  else if c = '\\' then some '\\'
  else none

/-- One more character in front of a text that was read. -/
def prepend (c : Char) (read : Option (List Char × List Char)) : Option (List Char × List Char) :=
  read.map fun (chars, rest) => (c :: chars, rest)

/-- The rest of a string between double quotes. -/
def readBasic : List Char → Option (List Char × List Char)
  | [] => none
  | c :: rest =>
    if c = '"' then some ([], rest)
    else if c = '\\' then
      match rest with
      | 'u' :: a :: b :: c :: d :: rest =>
        match (value16? [a, b, c, d]).bind scalar? with
        | some char => prepend char (readBasic rest)
        | none => none
      | 'U' :: a :: b :: c :: d :: e :: f :: g :: h :: rest =>
        match (value16? [a, b, c, d, e, f, g, h]).bind scalar? with
        | some char => prepend char (readBasic rest)
        | none => none
      | e :: rest =>
        match unescape? e with
        | some char => prepend char (readBasic rest)
        | none => none
      | [] => none
    else if isPlain c then prepend c (readBasic rest)
    else none

/-- The rest of a string between single quotes. -/
def readLiteral : List Char → Option (List Char × List Char)
  | [] => none
  | c :: rest =>
    if c = '\'' then some ([], rest)
    else if isPlain c then prepend c (readLiteral rest)
    else none

/-- Of quotes in a row, the last three close a string, and up to two in front of them belong to it.
The answer is what the quotes mean if they close it. -/
def closing? (quote : Char) (input : List Char) : Option (List Char × List Char) :=
  let count := min 5 (input.takeWhile (· = quote)).length
  if 3 ≤ count then some (List.replicate (count - 3) quote, input.drop count) else none

/-- Behind a backslash a line ends. -/
def endsLine (input : List Char) : Bool :=
  match input.dropWhile fun c => c = ' ' || c = '\t' with
  | '\n' :: _ => true
  | '\r' :: '\n' :: _ => true
  | _ => false

/-- The rest of a string between three double quotes. While `skipping`, which is so behind a
backslash that ends a line, white space and line ends are passed over. -/
def readLongBasic (skipping : Bool) : List Char → Option (List Char × List Char)
  | [] => none
  | c :: rest =>
    if c = '"' then
      match closing? '"' (c :: rest) with
      | some answer => some answer
      | none => prepend '"' (readLongBasic false rest)
    else if c = '\n' then
      if skipping then readLongBasic true rest else prepend '\n' (readLongBasic false rest)
    else if c = '\r' then
      match rest with
      | '\n' :: rest =>
        if skipping then readLongBasic true rest else prepend '\n' (readLongBasic false rest)
      | _ => none
    else if c = '\\' then
      if endsLine rest then readLongBasic true rest
      else
        match rest with
        | 'u' :: a :: b :: c :: d :: rest =>
          match (value16? [a, b, c, d]).bind scalar? with
          | some char => prepend char (readLongBasic false rest)
          | none => none
        | 'U' :: a :: b :: c :: d :: e :: f :: g :: h :: rest =>
          match (value16? [a, b, c, d, e, f, g, h]).bind scalar? with
          | some char => prepend char (readLongBasic false rest)
          | none => none
        | e :: rest =>
          match unescape? e with
          | some char => prepend char (readLongBasic false rest)
          | none => none
        | [] => none
    else if skipping && (c = ' ' || c = '\t') then readLongBasic true rest
    else if isPlain c then prepend c (readLongBasic false rest)
    else none

/-- The rest of a string between three single quotes. -/
def readLongLiteral : List Char → Option (List Char × List Char)
  | [] => none
  | c :: rest =>
    if c = '\'' then
      match closing? '\'' (c :: rest) with
      | some answer => some answer
      | none => prepend '\'' (readLongLiteral rest)
    else if c = '\n' then prepend '\n' (readLongLiteral rest)
    else if c = '\r' then
      match rest with
      | '\n' :: rest => prepend '\n' (readLongLiteral rest)
      | _ => none
    else if isPlain c then prepend c (readLongLiteral rest)
    else none

/-- Without a line end at the front. -/
def dropLineEnd : List Char → List Char
  | '\n' :: rest => rest
  | '\r' :: '\n' :: rest => rest
  | input => input

/-- A string of one line. -/
def readShort : List Char → Option (List Char × List Char)
  | '"' :: rest => readBasic rest
  | '\'' :: rest => readLiteral rest
  | _ => none

/-- A string of any kind. -/
def readString : List Char → Option (List Char × List Char)
  | '"' :: '"' :: '"' :: rest => readLongBasic false (dropLineEnd rest)
  | '\'' :: '\'' :: '\'' :: rest => readLongLiteral (dropLineEnd rest)
  | input => readShort input

end IgnoreAtlas.Toml
