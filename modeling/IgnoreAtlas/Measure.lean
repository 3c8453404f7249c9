import IgnoreAtlas.Number
import IgnoreAtlas.Repository.Basic

/-!
# The size of what is ignored

An ignored entry counts once, and with it the files that are at the entry or below it. Links are not
followed: a link has no size, and what it leads to belongs to something else. Entries of some names
are left out altogether; inside a directory nothing is left out. Sizes are numbers of 64 bits.
-/

namespace IgnoreAtlas

/-- What is ignored in a repository, in numbers. -/
structure IgnoreStats where
  root : Path
  /-- Ignored entries; a directory counts once. -/
  entries : Nat
  /-- Files at or below them. -/
  files : Nat
  /-- Their bytes. -/
  size : Nat
  deriving DecidableEq

/-- A number of files and the number of their bytes. -/
structure Volume where
  files : Nat
  size : Nat
  deriving DecidableEq

namespace Volume

/-- No file. -/
def none : Volume := ⟨0, 0⟩

/-- Both together. -/
def add (a b : Volume) : Volume := ⟨a.files + b.files, a.size + b.size⟩

instance : Add Volume := ⟨add⟩

end Volume

namespace Listing

/-- The files below a directory. -/
def volume : Listing → Volume
  | empty => .none
  | file _ content rest => ⟨1, content.size⟩ + rest.volume
  | link _ _ rest => rest.volume
  | dir _ inside rest => inside.volume + rest.volume

end Listing

namespace Entry

/-- The files at or below an entry. -/
def volume : Entry → Volume
  | .file content => ⟨1, content.size⟩
  | .link _ => .none
  | .dir inside => inside.volume

end Entry

namespace Measure

/-- The entry has one of the names that are left out. -/
def isExcluded (excluded : List String) (p : Path) : Bool :=
  match p.fileName?.bind fun n => Utf8.decode? n.bytes with
  | some name => excluded.contains name
  | none => false

/-- The files at or below what is at a path; a link there is not followed. -/
def volumeAt (place : Place) (p : Path) : Volume :=
  match place.files.findUnfollowed? place.cwd p with
  | some entry => entry.volume
  | none => .none

/-- The numbers for a repository with these ignored entries. -/
def stats (place : Place) (excluded : List String) (root : Path) (entries : List IgnoredEntry) :
    IgnoreStats :=
  let counted := entries.filter fun e => !isExcluded excluded e.path
  let volume := (counted.map fun e => volumeAt place e.path).foldl (· + ·) .none
  ⟨root, counted.length, volume.files, volume.size % values64⟩

/-- The numbers for each of these repositories, in their order. -/
def statsOfEach (place : Place) (excluded : List String)
    (repositories : List (Path × List IgnoredEntry)) : List IgnoreStats :=
  repositories.map fun (root, entries) => stats place excluded root entries

end Measure

end IgnoreAtlas
