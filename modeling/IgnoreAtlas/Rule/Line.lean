import IgnoreAtlas.Glob.Parser
import IgnoreAtlas.Text

/-!
# Rules

A line of a rule file is a comment, blank, or a rule. A rule is a glob with three marks around it:

- `!` in front: entries that match are *kept*, not ignored;
- `/` in front, or a slash inside: the glob is meant from the directory of the rule file; otherwise
  it is meant at any depth;
- `/` behind: the rule is for directories only.

A line whose glob cannot be read is no rule, and does not disturb the others.
-/

namespace IgnoreAtlas

/-- What rules say of an entry. -/
inductive Verdict
  | ignored
  | kept
  deriving DecidableEq

/-- A rule for the entries below a directory. -/
structure Rule where
  pattern : Pattern
  verdict : Verdict
  directoriesOnly : Bool
  deriving DecidableEq

namespace Rule

/-- The rule speaks of the entry with that path. -/
def appliesTo (rule : Rule) (path : Bytes) (isDir : Bool) : Bool :=
  (!rule.directoriesOnly || isDir) && rule.pattern.accepts path

/-- The line without blanks at its end; a backslash before the last blank keeps them. -/
def trimLine (line : List Char) : List Char :=
  if ['\\', ' '].isSuffixOf line then line else Text.trimEnd line

/-- The marks of a line: the verdict, whether the glob is anchored, and what is left of the line. -/
def frontMarks (line : List Char) : Verdict × Bool × List Char :=
  match line with
  | '\\' :: '!' :: _ | '\\' :: '#' :: _ => (.ignored, false, line.drop 1)
  | _ =>
    let (verdict, line) :=
      match line with
      | '!' :: rest => (Verdict.kept, rest)
      | _ => (.ignored, line)
    match line with
    | '/' :: rest => (verdict, true, rest)
    | _ => (verdict, false, line)

/-- The mark for directories at the end of a line, and what is left of the line. A backslash before
the slash goes with it. -/
def backMark (line : List Char) : Bool × List Char :=
  if line.getLast? = some '/' then
    let line := line.dropLast
    (true, if line.getLast? = some '\\' then line.dropLast else line)
  else (false, line)

/-- The glob for a line that is meant at any depth. -/
def atAnyDepth (line : List Char) : List Char :=
  if ['*', '*', '/'].isPrefixOf line ∨ line = ['*', '*'] then line else ['*', '*', '/'] ++ line

/-- The glob of a line without its marks. One that ends with `/**` means what is inside the
directory and not the directory. -/
def glob (anchored : Bool) (line : List Char) : List Char :=
  let line := if anchored ∨ '/' ∈ line then line else atAnyDepth line
  if ['/', '*', '*'].isSuffixOf line then line ++ ['/', '*'] else line

/-- The rule of a line. -/
def ofLine? (line : List Char) : Option Rule :=
  if line.head? = some '#' then none
  else
    let line := trimLine line
    if line.isEmpty then none
    else
      let (verdict, anchored, line) := frontMarks line
      let (directoriesOnly, line) := backMark line
      match Glob.parse (glob anchored line) with
      | .ok pattern => some ⟨pattern, verdict, directoriesOnly⟩
      | .error _ => none

end Rule

/-! ## Rule files -/

/-- The rules of a file, in its order. -/
abbrev RuleFile := List Rule

/-- The byte that ends a line. -/
def newlineByte : UInt8 := 10

/-- The byte that may stand before the end of a line. -/
def returnByte : UInt8 := 13

/-- The lines of a file. A line that is ended loses one carriage return at its end; nothing behind
the last end is no line. -/
def linesOf (file : Bytes) : List Bytes :=
  let pieces := splitOn newlineByte file
  let ended := pieces.dropLast.map fun line =>
    if line.getLast? = some returnByte then line.dropLast else line
  match pieces.getLast? with
  | some [] | none => ended
  | some last => ended ++ [last]

/-- The texts of the lines up to the first that is no text. -/
def textLines : List Bytes → List (List Char)
  | [] => []
  | line :: lines =>
    match Utf8.decode? line with
    | some text => text.toList :: textLines lines
    | none => []

/-- The mark that may stand in front of a text file. -/
def byteOrderMark : Char := '\uFEFF'

namespace RuleFile

/-- The rules of the lines of a file; marks in front of the first line are dropped. -/
def ofLines : List (List Char) → RuleFile
  | [] => []
  | first :: lines =>
    ((first.dropWhile (· = byteOrderMark)) :: lines).filterMap Rule.ofLine?

/-- The rules of a file. -/
def ofBytes (file : Bytes) : RuleFile := ofLines (textLines (linesOf file))

/-- What the file says of an entry: the last rule that speaks of it decides. -/
def verdict? (rules : RuleFile) (path : Bytes) (isDir : Bool) : Option Verdict :=
  (rules.reverse.find? (·.appliesTo path isDir)).map Rule.verdict

end RuleFile

end IgnoreAtlas
