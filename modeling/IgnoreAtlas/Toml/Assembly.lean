import IgnoreAtlas.Toml.Basic

/-!
# From statements to a table

Statements are carried out one after another on the table of the whole text. A key may be given a
value once, a table may have one header, and a table that is written out is not added to from
elsewhere.

While the statements behind a header are carried out, their table is *open*: it is not part of the
whole until the next header or the end of the text.
-/

namespace IgnoreAtlas.Toml

/-- Changes the table that the key leads to. On the way down a missing table is made, with the
origin `fresh`; of tables in double brackets the last one is meant. With `adding`, which is how a
key with points goes down, a table that is written out is not entered. -/
def changeAt (fresh : Origin) (adding : Bool)
    (change : Origin → Fields → Option (Origin × Fields)) :
    List String → Origin → Fields → Option (Origin × Fields)
  | [], origin, fields => change origin fields
  | name :: key, origin, fields => do
    let enter (o : Origin) (f : Fields) : Option (Origin × Fields) :=
      changeAt fresh adding change key o f
    match fields.lookup name with
    | none =>
      let (o, f) ← enter fresh []
      pure (origin, fields ++ [(name, .table o f)])
    | some (.table o f) =>
      if (o = .inline) || (adding && !o.isImplicit) then none
      else
        let (o, f) ← enter o f
        pure (origin, fields.map fun (n, v) => if n = name then (n, .table o f) else (n, v))
    | some (.tables members) =>
      let (_, f) ← enter .stated (members.getLast?.getD [])
      pure (origin, fields.map fun (n, v) =>
        if n = name then (n, .tables (members.dropLast ++ [f])) else (n, v))
    | some _ => none

/-- Gives a key of a table a value. The table must be meant by points exactly if there are any. -/
def assignIn (points : Bool) (name : String) (value : Toml) (origin : Origin) (fields : Fields) :
    Option (Origin × Fields) :=
  if origin.isDotted != points || (fields.lookup name).isSome then none
  else some (origin, fields ++ [(name, value)])

/-- Gives a key with points a value. -/
def assign (fresh : Origin) (key : List String) (value : Toml) (origin : Origin) (fields : Fields) :
    Option (Origin × Fields) :=
  match key.getLast? with
  | some name =>
    changeAt fresh true (assignIn (1 < key.length) name value) key.dropLast origin fields
  | none => none

/-- The table in braces with these assignments. -/
def inlineTable (pairs : List (List String × Toml)) : Option Toml :=
  (pairs.foldlM (fun (state : Origin × Fields) (pair : List String × Toml) =>
    assign .inlineDotted pair.1 pair.2 state.1 state.2) (Origin.inline, [])).map fun state =>
      .table .inline state.2

/-- Where statements are carried out. -/
structure Assembly where
  /-- The whole, without what is open. -/
  whole : Fields := []
  /-- The key of the open table; none for the whole itself. -/
  key : List String := []
  /-- The open table is one in double brackets. -/
  isMember : Bool := false
  fields : Fields := []

namespace Assembly

/-- Puts a table into its parent. -/
def putTable (name : String) (table : Fields) (origin : Origin) (fields : Fields) :
    Option (Origin × Fields) :=
  match fields.lookup name with
  | none => some (origin, fields ++ [(name, .table .stated table)])
  | some _ => none

/-- Adds a table to those in double brackets. -/
def putMember (name : String) (table : Fields) (origin : Origin) (fields : Fields) :
    Option (Origin × Fields) :=
  match fields.lookup name with
  | none => some (origin, fields ++ [(name, .tables [table])])
  | some (.tables members) =>
    some (origin, fields.map fun (n, v) =>
      if n = name then (n, .tables (members ++ [table])) else (n, v))
  | some _ => none

/-- The whole with the open table put into it. -/
def close (a : Assembly) : Option Fields :=
  match a.key.getLast? with
  | none => some a.fields
  | some name =>
    let put := if a.isMember then putMember name a.fields else putTable name a.fields
    (changeAt .implied false put a.key.dropLast .stated a.whole).map (·.2)

/-- What a parent holds under a name that gets a header: nothing, or a table that was only implied.
-/
def takeOut (name : String) (origin : Origin) (fields : Fields) : Option (Origin × Fields) :=
  match fields.lookup name with
  | none => some (origin, fields)
  | some (.table .implied _) => some (origin, fields.filter (·.1 ≠ name))
  | some _ => none

/-- The fields of the table at a key. -/
def fieldsAt : List String → Fields → Fields
  | [], fields => fields
  | name :: key, fields =>
    match fields.lookup name with
    | some (.table _ f) => fieldsAt key f
    | some (.tables members) => fieldsAt key (members.getLast?.getD [])
    | _ => []

/-- Nothing but tables in double brackets stands under the name. -/
def checkMember (name : String) (origin : Origin) (fields : Fields) : Option (Origin × Fields) :=
  match fields.lookup name with
  | none => some (origin, fields)
  | some (.tables _) => some (origin, fields)
  | some _ => none

/-- Carries out a statement. -/
def step (a : Assembly) : Statement → Option Assembly
  | .assign key value =>
    (assign .dotted key value .stated a.fields).map fun (_, fields) => { a with fields }
  | .header key => do
    let whole ← a.close
    let name ← key.getLast?
    let (_, rest) ← changeAt .implied false (takeOut name) key.dropLast .stated whole
    pure { whole := rest, key, isMember := false, fields := fieldsAt key whole }
  | .member key => do
    let whole ← a.close
    let name ← key.getLast?
    let (_, rest) ← changeAt .implied false (checkMember name) key.dropLast .stated whole
    pure { whole := rest, key, isMember := true, fields := [] }

end Assembly

/-- The table that the statements mean. -/
def assemble (statements : List Statement) : Option Fields := do
  let a ← statements.foldlM Assembly.step ({} : Assembly)
  a.close

end IgnoreAtlas.Toml
