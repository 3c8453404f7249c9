/-!
# TOML values

A TOML text is a list of statements, and it means a table. A table remembers how it came to be,
because that decides what may be added to it later, see `Origin`.
-/

namespace IgnoreAtlas

namespace Toml

/-- How a table came to be. -/
inductive Origin
  /-- The whole text, or a table with a header of its own. -/
  | stated
  /-- A table above one with a header. -/
  | implied
  /-- A table named in front of a point in a key. -/
  | dotted
  /-- A table written in braces. -/
  | inline
  /-- A table named in front of a point in a key within braces. -/
  | inlineDotted
  deriving DecidableEq

end Toml

/-- A TOML value. -/
inductive Toml
  | text (text : String)
  | integer (value : Int)
  | truth (value : Bool)
  /-- A number with a fraction or an exponent, or one of the special numbers. -/
  | float
  /-- A date, a time, or both. -/
  | time
  | array (items : List Toml)
  | table (origin : Toml.Origin) (fields : List (String × Toml))
  /-- Tables that have headers in double brackets. -/
  | tables (members : List (List (String × Toml)))

namespace Toml

/-- The fields of a table. -/
abbrev Fields := List (String × Toml)

/-- A statement of a TOML text. -/
inductive Statement
  | assign (key : List String) (value : Toml)
  | header (key : List String)
  /-- A header in double brackets. -/
  | member (key : List String)

namespace Origin

/-- A table of this origin stands for the point in a key. -/
def isDotted : Origin → Bool
  | dotted => true
  | inlineDotted => true
  | _ => false

/-- A table of this origin has not been written out. -/
def isImplicit : Origin → Bool
  | implied => true
  | dotted => true
  | inlineDotted => true
  | _ => false

end Origin

/-- The levels at which arrays, tables in braces and keys with points end to be read. -/
def depthLimit : Nat := 80

end Toml

end IgnoreAtlas
