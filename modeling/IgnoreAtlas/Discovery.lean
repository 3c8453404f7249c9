import IgnoreAtlas.Repository.Collection
import IgnoreAtlas.Repository.Opening
import IgnoreAtlas.Settings.Basic

/-!
# Finding repositories

From each starting directory the search goes down through directories. It does not look into a
directory that is to be skipped, nor deeper than the settings allow; a starting directory itself is
never skipped. Every directory it comes to that has something named `.git` in it and opens as a
repository with files is one of the repositories of the workspace.

If links are followed, a link to a directory is taken for a directory of its own name, unless the
search is already inside that directory.
-/

namespace IgnoreAtlas

namespace Listing

/-- The number of directories below this one. -/
def countDirs : Listing → Nat
  | empty => 0
  | file _ _ rest => rest.countDirs
  | link _ _ rest => rest.countDirs
  | dir _ inside rest => inside.countDirs + rest.countDirs + 1

end Listing

namespace Discovery

/-- A directory of that name is not looked into. A name that is no text is never skipped. -/
def skips (settings : DiscoverySettings) (n : Name) : Bool :=
  match Utf8.decode? n.bytes with
  | none => false
  | some name =>
    name == ".git" || settings.skipNames.contains name ||
      (!settings.scanHidden && n.bytes.head? == some dot)

/-- The directory is the root of a repository with files. -/
def isRoot (place : Place) (dir : Path) : Bool :=
  place.exists? (dir.child .git) && Repository.open? place dir == some .worktree

/-- The directory itself, if it is a root. -/
def ownRoot (place : Place) (dir : Path) : List Path := if isRoot place dir then [dir] else []

/-- One level less, if there is one left. -/
def below : Option Nat → Option (Option Nat)
  | none => some none
  | some 0 => none
  | some (levels + 1) => some (some levels)

/-- Where a search stands: the directory as it is spelled, where it is, where the directories above
it are, and how many levels are left. -/
structure Stand where
  path : Path
  location : Location
  above : List Location
  levels : Option Nat

/-- The stand in an entry of the directory, which is at `location`. -/
def Stand.enter (stand : Stand) (n : Name) (location : Location) (levels : Option Nat) : Stand :=
  ⟨stand.path.child n, location, stand.location :: stand.above, levels⟩

/-- The stand in a directory of that name. -/
def Stand.into? (settings : DiscoverySettings) (stand : Stand) (n : Name) : Option Stand :=
  if skips settings n then none
  else (below stand.levels).map (stand.enter n (stand.location ++ [n]))

/-- The stand behind a link of that name, and what is there. -/
def Stand.through? (place : Place) (settings : DiscoverySettings) (stand : Stand) (n : Name) :
    Option (Stand × Listing) :=
  if settings.followLinks && !skips settings n then
    match below stand.levels, place.files.resolve place.cwd (.ofLocation (stand.location ++ [n])) with
    | some levels, .ok location =>
      if location ∈ stand.location :: stand.above then none
      else (place.files.listing? location).map (stand.enter n location levels, ·)
    | _, _ => none
  else none

/-- The roots below a directory. A link to a directory is handed to `jump`. -/
def rootsWith (place : Place) (settings : DiscoverySettings) (jump : Stand → Listing → List Path)
    (stand : Stand) : Listing → List Path
  | .empty => []
  | .file _ _ rest => rootsWith place settings jump stand rest
  | .link n _ rest =>
    (match stand.through? place settings n with
      | some (next, inside) => ownRoot place next.path ++ jump next inside
      | none => []) ++ rootsWith place settings jump stand rest
  | .dir n inside rest =>
    (match stand.into? settings n with
      | some next => ownRoot place next.path ++ rootsWith place settings jump next inside
      | none => []) ++ rootsWith place settings jump stand rest

/-- The roots below a directory, through at most `links` links one inside the other. -/
def roots (place : Place) (settings : DiscoverySettings) : Nat → Stand → Listing → List Path
  | 0 => rootsWith place settings fun _ _ => []
  | links + 1 => rootsWith place settings (roots place settings links)

/-- The roots that are found from a starting directory. A path that leads to no directory has none.
No more links can be inside one another than there are directories. -/
def rootsFrom (place : Place) (settings : DiscoverySettings) (start : Path) : List Path :=
  match place.files.resolve place.cwd start with
  | .ok location =>
    match place.files.listing? location with
    | some inside =>
      let path := Path.ofLocation location
      let links := place.files.top.countDirs + 1
      ownRoot place path ++
        roots place settings links ⟨path, location, [], settings.maxDepth⟩ inside
    | none => []
  | .error _ => []

/-- The roots that are found from the starting directories, one after the other. A path that leads
to nothing, or to something other than a directory, is passed over; every other one is searched by
its canonical path. -/
def rootsInTurn (place : Place) (settings : DiscoverySettings) :
    List Path → Except Fault (List Path)
  | [] => .ok []
  | start :: starts =>
    if !place.exists? start || !place.isDir start then rootsInTurn place settings starts
    else do
      let _ ← place.files.resolve place.cwd start
      let more ← rootsInTurn place settings starts
      pure (rootsFrom place settings start ++ more)

/-- The search for repositories from the starting directories, with the fault that would end it. -/
def search (place : Place) (settings : DiscoverySettings) (starts : List Path) :
    Except Fault RepositorySet :=
  (rootsInTurn place settings starts).map fun roots => .ofList (roots.map .ofRoot)

/-- The repositories that are found from the starting directories. -/
def discover (place : Place) (settings : DiscoverySettings) (starts : List Path) : RepositorySet :=
  .ofList ((starts.flatMap (rootsFrom place settings)).map .ofRoot)

end Discovery

end IgnoreAtlas
