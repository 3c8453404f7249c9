import IgnoreAtlas.Path.Basic

/-!
# What a holder is told

A holder of files has a kind. A change detection tells it about changed paths in a `DirtyScope`:
files to be looked at again, and directories to be looked at again with all that is below them.
-/

namespace IgnoreAtlas

/-- The files that a holder holds. -/
inductive HolderKind
  /-- The files that version control ignores. -/
  | ignored
  deriving DecidableEq

/-- Paths that a change detection has marked. -/
structure DirtyScope where
  files : List Path := []
  dirs : List Path := []
  deriving DecidableEq

namespace DirtyScope

/-- Marks a path that is not marked yet. -/
def mark (marked : List Path) (p : Path) : List Path :=
  if marked.any (·.same p) then marked else marked ++ [p]

/-- Marks one file. -/
def addFile (scope : DirtyScope) (p : Path) : DirtyScope :=
  { scope with files := mark scope.files p }

/-- Marks a directory with all that is below it. -/
def addDir (scope : DirtyScope) (p : Path) : DirtyScope :=
  { scope with dirs := mark scope.dirs p }

/-- Nothing is marked. -/
def isEmpty (scope : DirtyScope) : Bool := scope.files.isEmpty && scope.dirs.isEmpty

end DirtyScope

end IgnoreAtlas
