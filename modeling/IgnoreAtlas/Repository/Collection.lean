import IgnoreAtlas.Repository.Basic

/-!
# The repositories of a workspace

A set of repositories is kept sorted by root, each root once. A file belongs to the deepest root
that is the file or one of its ancestors; which of two roots is deeper, their numbers of components
say.
-/

namespace IgnoreAtlas

/-- Repositories sorted by root, no root twice. -/
structure RepositorySet where
  repositories : List Repository
  sorted : repositories.Pairwise fun a b => a.root.key < b.root.key
  deriving DecidableEq

namespace RepositorySet

/-- The set without repositories. -/
def empty : RepositorySet := ⟨[], .nil⟩

/-- The set of these repositories; of several with one root, the first. -/
def ofList (repositories : List Repository) : RepositorySet where
  repositories := dropRepeats Repository.same (repositories.mergeSort Repository.le)
  sorted := Repository.pairwise_dropRepeats <|
    List.pairwise_mergeSort Repository.le_trans Repository.le_total repositories

/-- The number of repositories. -/
def size (set : RepositorySet) : Nat := set.repositories.length

/-- The roots. -/
def roots (set : RepositorySet) : List Path := set.repositories.map Repository.root

/-- Of the best root so far and another one, the deeper; of two as deep, the other one. -/
def deeper (best : Option Path) (root : Path) : Option Path :=
  match best with
  | none => some root
  | some b => if b.components.length ≤ root.components.length then some root else some b

/-- Of the roots around a file, the deepest; of several, the last. -/
def deepest? (roots : List Path) (file : Path) : Option Path :=
  (roots.filter file.startsWith).foldl deeper none

/-- The root of the repository that a file belongs to. -/
def rootOf? (place : Place) (set : RepositorySet) (file : Path) : Option Path :=
  deepest? set.roots (place.normalize file)

/-- The repository with that root. -/
def withRoot? (set : RepositorySet) (root : Path) : Option Repository :=
  set.repositories.find? (·.root.same root)

end RepositorySet

end IgnoreAtlas
