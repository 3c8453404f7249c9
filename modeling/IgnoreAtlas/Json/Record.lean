import IgnoreAtlas.Json.Basic

/-!
# Records

A record is read from an object or from an array. In an object its fields are found by name, and
fields of other names are passed over; a field of the record must not occur twice. An array holds
the fields in the order of the record, and must not hold more than there are.
-/

namespace IgnoreAtlas.Json

/-- The fields that were found for a record. -/
abbrev Record := List (String × Json)

/-- No field occurs twice. -/
def distinctNames : Record → Bool
  | [] => true
  | (name, _) :: fields => !(fields.any (·.1 == name)) && distinctNames fields

/-- The fields of a record with these names. -/
def record? (names : List String) : Json → Option Record
  | .object fields =>
    let known := fields.filter fun (name, _) => names.contains name
    if distinctNames known then some known else none
  | .array items => if items.length ≤ names.length then some (names.zip items) else none
  | _ => none

namespace Record

/-- A field that has to be there. -/
def required {α : Type} (record : Record) (name : String) (read : Json → Option α) : Option α :=
  (record.lookup name).bind read

/-- A field that is `usual` when it is not there. -/
def optional {α : Type} (record : Record) (name : String) (usual : α) (read : Json → Option α) :
    Option α :=
  match record.lookup name with
  | some value => read value
  | none => some usual

end Record

/-- One of these words; a word is also read from an object that has nothing but the field of that
name, with the value `null`. -/
def word? {α : Type} (words : List (String × α)) : Json → Option α
  | .string text => words.lookup text
  | .object [(name, .null)] => words.lookup name
  | _ => none

/-- A list of values. -/
def list? {α : Type} (read : Json → Option α) : Json → Option (List α)
  | .array items => items.mapM read
  | _ => none

end IgnoreAtlas.Json
