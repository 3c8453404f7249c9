import IgnoreAtlas.FileSystem.Edit

/-!
# The place a program runs in

A program sees a tree of files from a current directory, with a home directory. Paths are looked up
from there, and `Place.normalize` gives every path one absolute spelling:

- a path that leads somewhere gets the canonical path of what it leads to;
- otherwise `.` and `..` are removed by their spelling alone, the deepest part that leads somewhere
  is made canonical, and the rest is kept.
-/

namespace IgnoreAtlas

/-- The tree of files, and where in it a program runs. -/
structure Place where
  files : FileSystem
  /-- The current directory, which may have been removed. Then no relative path leads anywhere. -/
  cwd : Location
  home : Path
  /-- The directory that was set for configuration files, if one was. -/
  configHome : Option Path := none

namespace Place

/-- The current directory, if it still is one. -/
def currentDir? (place : Place) : Option Location :=
  (place.files.listing? place.cwd).map fun _ => place.cwd

/-- The entry that a path leads to. -/
def find? (place : Place) (p : Path) : Option Entry := place.files.find? place.cwd p

/-- The path leads to something. -/
def exists? (place : Place) (p : Path) : Bool := (place.find? p).isSome

/-- The path leads to a directory. -/
def isDir (place : Place) (p : Path) : Bool :=
  match place.find? p with
  | some (.dir _) => true
  | _ => false

/-- The path leads to a file. -/
def isFile (place : Place) (p : Path) : Bool :=
  match place.find? p with
  | some (.file _) => true
  | _ => false

/-- The bytes of the file that a path leads to. -/
def read (place : Place) (p : Path) : Except Fault Bytes :=
  (place.files.read place.cwd p).map Content.bytes

/-- The bytes of the file that a path leads to; none when there is no such file. -/
def readOrNothing (place : Place) (p : Path) : Bytes :=
  match place.read p with
  | .ok bytes => bytes
  | .error _ => []

/-- The text of the file that a path leads to. -/
def readText (place : Place) (p : Path) : Except Fault String := do
  match Utf8.decode? (← place.read p) with
  | some text => pure text
  | none => throw .notText

/-! ## One spelling for each path -/

/-- `.` and `..` carried out on the spelling: `..` takes back the name before it. -/
def clean (components : List Component) : List Name :=
  (components.foldl (fun names component =>
    match component with
    | .root | .here => names
    | .up => names.drop 1
    | .name n => n :: names) []).reverse

/-- The first `count` names lead to this location. -/
def reached? (place : Place) (names : List Name) (count : Nat) : Option Location :=
  match place.files.resolve place.cwd (.ofLocation (names.take count)) with
  | .ok location => some location
  | .error _ => none

/-- The location of the longest beginning of `names` that leads somewhere, with the rest of the
names behind it. -/
def settle (place : Place) (names : List Name) : Nat → Location
  | 0 => (place.reached? names 0).getD [] ++ names
  | count + 1 =>
    match place.reached? names (count + 1) with
    | some location => location ++ names.drop (count + 1)
    | none => place.settle names count

/-- A relative path read in the current directory. -/
def absolute (place : Place) (p : Path) : Path :=
  if p.isAbsolute then p
  else
    match place.currentDir? with
    | some cwd => (Path.ofLocation cwd).join p
    | none => p

/-- The one spelling of a path. Only a relative path without a current directory stays relative. -/
def normalize (place : Place) (p : Path) : Path :=
  let whole := place.absolute p
  match place.files.resolve place.cwd whole with
  | .ok location => .ofLocation location
  | .error _ =>
    let names := clean whole.components
    if whole.isAbsolute then .ofLocation (place.settle names names.length)
    else ⟨joinWith slash (names.map Name.bytes)⟩

end Place

end IgnoreAtlas
