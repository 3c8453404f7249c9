import IgnoreAtlas.Toml.Assembly
import IgnoreAtlas.Toml.Quoted
import IgnoreAtlas.Toml.Scalar

/-!
# Reading TOML

A text is read line by line: each line is empty, a header, or an assignment, and may end in a
comment. Values can go over several lines inside brackets; what stands in braces is on one line.

`Toml.parse?` answers with the fields of the table that the text means. Values are read with a fuel
that the length of the text bounds.
-/

namespace IgnoreAtlas.Toml

/-! ## Blanks and comments -/

/-- A blank within a line. -/
def isBlank (c : Char) : Bool := c = ' ' || c = '\t'

/-- Without blanks at the front. -/
def skipBlanks (input : List Char) : List Char := input.dropWhile isBlank

/-- Without a comment and the end of the line, or nothing when something else is there. At the end
of the text a line may end without a sign. -/
def endLine? : Bool → List Char → Option (List Char)
  | _, [] => some []
  | inComment, c :: rest =>
    if c = '\n' then some rest
    else if c = '\r' then
      match rest with
      | '\n' :: rest => some rest
      | _ => none
    else if inComment then (if isPlain c then endLine? true rest else none)
    else if isBlank c then endLine? false rest
    else if c = '#' then endLine? true rest
    else none

/-- Without blanks, line ends and comments at the front. -/
def skipLines : Bool → List Char → Option (List Char)
  | _, [] => some []
  | inComment, c :: rest =>
    if c = '\n' then skipLines false rest
    else if c = '\r' then
      match rest with
      | '\n' :: rest => skipLines false rest
      | _ => none
    else if inComment then (if isPlain c then skipLines true rest else none)
    else if isBlank c then skipLines false rest
    else if c = '#' then skipLines true rest
    else some (c :: rest)

/-! ## Keys -/

/-- A character of a key without quotes. -/
def isKeyChar (c : Char) : Bool := c.isAlphanum || c = '-' || c = '_'

/-- A key without points, and what is behind it. -/
def readSimpleKey (input : List Char) : Option (String × List Char) :=
  match input with
  | '"' :: _ => (readShort input).map fun (chars, rest) => (String.ofList chars, rest)
  | '\'' :: _ => (readShort input).map fun (chars, rest) => (String.ofList chars, rest)
  | _ =>
    let name := input.takeWhile isKeyChar
    if name.isEmpty then none else some (String.ofList name, input.dropWhile isKeyChar)

/-- A key of at most `fuel` parts, with blanks around each of them, and what is behind it. -/
def readKey : Nat → List Char → Option (List String × List Char)
  | 0, _ => none
  | fuel + 1, input => do
    let (name, rest) ← readSimpleKey (skipBlanks input)
    match skipBlanks rest with
    | '.' :: rest => do
      let (key, rest) ← readKey fuel rest
      pure (name :: key, rest)
    | rest => pure ([name], rest)

/-- A key, and what is behind it. -/
def key? (input : List Char) : Option (List String × List Char) := readKey (depthLimit - 1) input

/-! ## Values -/

mutual

/-- A value at the front, inside `depth` brackets or braces. -/
def readValue : Nat → Nat → List Char → Option (Toml × List Char)
  | 0, _, _ => none
  | fuel + 1, depth, input =>
    match input with
    | '"' :: _ => (readString input).map fun (chars, rest) => (.text (String.ofList chars), rest)
    | '\'' :: _ => (readString input).map fun (chars, rest) => (.text (String.ofList chars), rest)
    | '[' :: rest =>
      if depthLimit ≤ depth + 1 then none
      else do
        let rest ← skipLines false rest
        let (items, rest) ← readItems fuel (depth + 1) rest
        pure (.array items, rest)
    | '\x7b' :: rest =>
      if depthLimit ≤ depth + 1 then none
      else
        match skipBlanks rest with
        | '\x7d' :: rest => some (.table .inline [], rest)
        | rest => do
          let (pairs, rest) ← readPairs fuel (depth + 1) rest
          pure (← inlineTable pairs, rest)
    | _ => readWord input

/-- The items of an array up to its end; blanks in front of the first one are gone. -/
def readItems : Nat → Nat → List Char → Option (List Toml × List Char)
  | 0, _, _ => none
  | fuel + 1, depth, input =>
    match input with
    | ']' :: rest => some ([], rest)
    | _ => do
      let (item, rest) ← readValue fuel depth input
      match ← skipLines false rest with
      | ']' :: rest => pure ([item], rest)
      | ',' :: rest => do
        let (items, rest) ← readItems fuel depth (← skipLines false rest)
        pure (item :: items, rest)
      | _ => none

/-- The assignments in braces up to their end. -/
def readPairs : Nat → Nat → List Char → Option (List (List String × Toml) × List Char)
  | 0, _, _ => none
  | fuel + 1, depth, input => do
    let (key, rest) ← key? input
    match rest with
    | '=' :: rest =>
      let (value, rest) ← readValue fuel depth (skipBlanks rest)
      match skipBlanks rest with
      | '\x7d' :: rest => pure ([(key, value)], rest)
      | ',' :: rest => do
        let (pairs, rest) ← readPairs fuel depth rest
        pure ((key, value) :: pairs, rest)
      | _ => none
    | _ => none

end

/-- A value at the front. Each step into it is fed by a character. -/
def value? (input : List Char) : Option (Toml × List Char) :=
  readValue (2 * input.length + 2) 0 input

/-! ## Statements -/

/-- The statement of a line that has one, and the lines behind it. -/
def readStatement (input : List Char) : Option (Statement × List Char) :=
  match input with
  | '[' :: '[' :: rest => do
    match ← key? rest with
    | (key, ']' :: ']' :: rest) => pure (.member key, ← endLine? false rest)
    | _ => none
  | '[' :: rest => do
    match ← key? rest with
    | (key, ']' :: rest) => pure (.header key, ← endLine? false rest)
    | _ => none
  | _ => do
    match ← key? input with
    | (key, '=' :: rest) => do
      let (value, rest) ← value? (skipBlanks rest)
      pure (.assign key value, ← endLine? false rest)
    | _ => none

/-- The line has no statement. -/
def isIdle (input : List Char) : Bool :=
  match input with
  | [] => true
  | c :: _ => c = '#' || c = '\n' || c = '\r'

/-- The statements of at most `fuel` lines. -/
def readStatements : Nat → List Char → Option (List Statement)
  | 0, input => if input.isEmpty then some [] else none
  | fuel + 1, input =>
    if input.isEmpty then some []
    else
      let input := skipBlanks input
      if isIdle input then (endLine? false input).bind (readStatements fuel)
      else do
        let (statement, rest) ← readStatement input
        let statements ← readStatements fuel rest
        pure (statement :: statements)

/-- A mark that may stand in front of a text. -/
def byteOrderMark : Char := '\uFEFF'

/-- Without the mark. -/
def dropMark : List Char → List Char
  | c :: rest => if c = byteOrderMark then rest else c :: rest
  | [] => []

/-- The table that a text means. -/
def parse? (text : String) : Option Fields :=
  let input := dropMark text.toList
  (readStatements (input.length + 1) input).bind assemble

end IgnoreAtlas.Toml
