import IgnoreAtlas.Rule.Line

/-!
# Which rule decides

The rules that speak of an entry come from several files. For an entry of a directory they are asked
in this order, and the first answer counts:

1. the rule files of the directory and of those above it, the nearest first;
2. the excludes of the repository;
3. the rules shared by all repositories.

A directory that is a boundary keeps away the first two kinds from above it.

The rules count in a repository only. One begins at a boundary on the way, or at a directory around
the root of the scan: that directory brings no rules along, but those on the way count then. Without
either nothing decides.
-/

namespace IgnoreAtlas

/-- A path without one `./` at its front. -/
def dropHere : Bytes → Bytes
  | 46 :: 47 :: rest => rest
  | path => path

/-- The path of an entry as the rules of the directory `base` see it: without the base and a slash
behind it. The base is compared byte by byte, and a path without a slash is left as it is. -/
def relativeTo (base path : Bytes) : Bytes :=
  let path := dropHere path
  if base ≠ [dot] ∧ slash ∈ path ∧ base.isPrefixOf path then
    match path.drop base.length with
    | b :: rest => if b = slash then rest else b :: rest
    | [] => []
  else path

/-- The rules that a directory brings along. -/
structure Frame where
  /-- The directory, as the walk spells it. -/
  base : Bytes
  rules : RuleFile
  excludes : RuleFile
  /-- A repository begins here. -/
  boundary : Bool
  deriving DecidableEq

/-- The rules for the entries of a directory: those of the directory and of each one above it, the
nearest first, and the shared ones. -/
structure Chain where
  frames : List Frame
  /-- A repository begins at a directory around the root of the scan. -/
  enclosed : Bool
  shared : RuleFile
  sharedBase : Bytes
  deriving DecidableEq

namespace Chain

/-- The frames up to the first boundary, with it. -/
def reach : List Frame → List Frame
  | [] => []
  | f :: frames => if f.boundary then [f] else f :: reach frames

/-- The chain inside a directory further down. -/
def enter (chain : Chain) (frame : Frame) : Chain := { chain with frames := frame :: chain.frames }

/-- The rules are those of a repository. -/
def inRepository (chain : Chain) : Bool := chain.frames.any Frame.boundary || chain.enclosed

/-- What the rules say of an entry; the path is spelled by the walk. -/
def verdict? (chain : Chain) (path : Bytes) (isDir : Bool) : Option Verdict :=
  if chain.inRepository then
    let path := dropHere path
    let near := reach chain.frames
    (near.findSome? fun f => f.rules.verdict? (relativeTo f.base path) isDir).or <|
      (near.findSome? fun f => f.excludes.verdict? (relativeTo f.base path) isDir).or <|
        chain.shared.verdict? (relativeTo chain.sharedBase path) isDir
  else none

/-- The rules ignore the entry. -/
def ignores (chain : Chain) (path : Bytes) (isDir : Bool) : Bool :=
  chain.verdict? path isDir == some .ignored

end Chain

end IgnoreAtlas
