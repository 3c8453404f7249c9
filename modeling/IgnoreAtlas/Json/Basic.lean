import IgnoreAtlas.Number

/-!
# JSON values

An object keeps its fields in the order they were written, repeated ones too: what a repeated field
means is for the reader of the value to say. A string whose escapes name half of a surrogate pair
spells no text. Such a string, and an object with such a name of a field, is `Json.unspelled`: a
value that can be passed over and of which nothing can be read.
-/

namespace IgnoreAtlas

/-- A JSON value. -/
inductive Json
  | null
  | bool (value : Bool)
  | integer (value : Int)
  /-- A number with a fraction, an exponent, or a minus sign before zero, as it was written. -/
  | decimal (literal : String)
  | string (text : String)
  /-- A string, or an object with a name of a field, that spells no text. -/
  | unspelled
  | array (items : List Json)
  | object (fields : List (String × Json))

namespace Json

/-- A natural number as a value. -/
def nat (n : Nat) : Json := .integer n

/-- The text of a string. -/
def text? : Json → Option String
  | .string text => some text
  | _ => none

/-- The number, if it fits in 64 bits. -/
def nat64? : Json → Option Nat
  | .integer (.ofNat n) => if n < values64 then some n else none
  | _ => none

/-- A truth value. -/
def bool? : Json → Option Bool
  | .bool b => some b
  | _ => none

/-- The items of an array. -/
def array? : Json → Option (List Json)
  | .array items => some items
  | _ => none

/-- The fields of an object. -/
def fields? : Json → Option (List (String × Json))
  | .object fields => some fields
  | _ => none

/-- The field of that name; of several, the first. -/
def field? (name : String) (value : Json) : Option Json :=
  value.fields?.bind fun fields => (fields.find? (·.1 == name)).map (·.2)

end Json

end IgnoreAtlas
