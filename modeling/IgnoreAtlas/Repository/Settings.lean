import IgnoreAtlas.Text

/-!
# The settings file of a repository

A file `config` holds sections in brackets and, in each, lines `key = value`. Sections and keys are
the same in any case; a quoted part behind the name of a section is kept as it is. A line that is
neither, nor a comment, makes the whole file unreadable.
-/

namespace IgnoreAtlas.Repository

/-- A line of the file: the section and the key in lower case, and the value, if there is a `=`. -/
structure Setting where
  group : String
  key : String
  value : Option String
  deriving DecidableEq

namespace Setting

/-- A character that can stand in the name of a section or a key. -/
def isKeyChar (c : Char) : Bool := c.isAlphanum || c == '-'

/-- The line up to a comment sign that is outside quotes. -/
def dropComment (quoted : Bool) : List Char → List Char
  | [] => []
  | '\\' :: c :: rest => '\\' :: c :: dropComment quoted rest
  | '"' :: rest => '"' :: dropComment (!quoted) rest
  | c :: rest => if !quoted && (c == '#' || c == ';') then [] else c :: dropComment quoted rest

/-- The value with quotes taken away and escapes carried out. -/
def unquote : List Char → Option (List Char)
  | [] => some []
  | '"' :: rest => unquote rest
  | '\\' :: c :: rest => do
    let e ← match c with
      | 'n' => some '\n'
      | 't' => some '\t'
      | 'b' => some (Char.ofNat 8)
      | '"' => some '"'
      | '\\' => some '\\'
      | _ => none
    (unquote rest).map (e :: ·)
  | '\\' :: [] => some []
  | c :: rest => (unquote rest).map (c :: ·)

/-- The characters between two quotes, and what is behind the second. -/
def subsection? : List Char → Option (List Char × List Char)
  | [] => none
  | '"' :: rest => some ([], rest)
  | '\\' :: c :: rest => (subsection? rest).map fun (name, rest) => (c :: name, rest)
  | c :: rest => (subsection? rest).map fun (name, rest) => (c :: name, rest)

/-- A section behind its opening bracket: its name, and what is behind the closing bracket. -/
def header? (line : List Char) : Option (String × List Char) := do
  let isName (c : Char) := isKeyChar c || c == '.'
  let name := (String.ofList (line.takeWhile isName)).toLower
  match Text.trimStart (line.dropWhile isName) with
  | ']' :: rest => if name.isEmpty then none else some (name, rest)
  | '"' :: rest =>
    let (sub, rest) ← subsection? rest
    match rest with
    | ']' :: rest => some (name ++ "." ++ String.ofList sub, rest)
    | _ => none
  | _ => none

/-- A line of a section; none for a line that is no setting. -/
def entryOf? (group : String) (line : List Char) : Option Setting := do
  let key := (String.ofList (line.takeWhile isKeyChar)).toLower
  if key.isEmpty then none
  else
    match Text.trimStart (line.dropWhile isKeyChar) with
    | [] => some ⟨group, key, none⟩
    | '=' :: rest =>
      let value ← unquote (Text.trimStart rest)
      some ⟨group, key, some (String.ofList value)⟩
    | _ => none

/-- The settings of the lines, the name of the open section given; a line that ends with a backslash
goes on in the next. -/
def ofLines? (group : String) (open_ : List Char) : List (List Char) → Option (List Setting)
  | [] => if open_.isEmpty then some [] else (entryOf? group open_).map ([·])
  | next :: lines =>
    let line := Text.trimEnd (dropComment false (Text.trimStart (open_ ++ next)))
    if line.getLast? == some '\\' && line.dropLast.getLast? != some '\\' then
      ofLines? group line.dropLast lines
    else
      match line with
      | [] => ofLines? group [] lines
      | '[' :: rest => do
        let (group, rest) ← header? rest
        match Text.trimStart rest with
        | [] => ofLines? group [] lines
        | rest => return (← entryOf? group rest) :: (← ofLines? group [] lines)
      | _ => return (← entryOf? group line) :: (← ofLines? group [] lines)

/-- The lines of a text. -/
def lines (text : List Char) : List (List Char) :=
  text.foldr (fun c ls =>
    match ls with
    | [] => if c = '\n' then [[], []] else [[c]]
    | l :: ls => if c = '\n' then [] :: l :: ls else (c :: l) :: ls) [[]]

/-- The settings of a file, if it can be read. -/
def parse? (file : Bytes) : Option (List Setting) :=
  ofLines? "" [] (lines ((Utf8.lossy file).toList.dropWhile (· = '\uFEFF')))

/-- The last setting of that section and key. -/
def last? (group key : String) (settings : List Setting) : Option Setting :=
  settings.reverse.find? fun s => s.group == group && s.key == key

/-- A whole number, perhaps in thousands, millions or billions (of 1024). -/
def number? (text : String) : Option Int :=
  let scale : Int := match text.toList.getLast? with
    | some 'k' | some 'K' => 1024
    | some 'm' | some 'M' => 1024 * 1024
    | some 'g' | some 'G' => 1024 * 1024 * 1024
    | _ => 1
  let digits := if scale = 1 then text.toList else text.toList.dropLast
  let (negative, digits) := match digits with
    | '-' :: rest => (true, rest)
    | '+' :: rest => (false, rest)
    | rest => (false, rest)
  if digits.isEmpty || !digits.all Char.isDigit then none
  else
    let n : Int := digits.foldl (fun n c => n * 10 + (c.toNat - '0'.toNat)) 0
    some ((if negative then -n else n) * scale)

/-- The truth value of a setting: a key alone is true. -/
def truth? (s : Setting) : Option Bool :=
  match s.value with
  | none => some true
  | some text =>
    let word := text.toLower
    if word ∈ ["true", "yes", "on"] then some true
    else if word ∈ ["false", "no", "off", ""] then some false
    else (number? text).map (· != 0)

end Setting

end IgnoreAtlas.Repository
