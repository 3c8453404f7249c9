import IgnoreAtlas.FileSystem.Listing

/-!
# Finding an entry

A path is found by walking it one segment at a time from a directory. A symbolic link is replaced by
its target, read in the directory that holds the link, and the walk gives up after forty links.

The walk answers with the *location* of what it found. A location holds neither links nor `..`, so
it is the canonical form of every path that leads there.
-/

namespace IgnoreAtlas

/-- Why a file operation fails. -/
inductive Fault
  | missing
  | exists
  | notDirectory
  | isDirectory
  | nameTooLong
  | tooManyLinks
  | nulByte
  | notText
  deriving DecidableEq

namespace Fault

/-- The words of the operating system for the fault. -/
def message : Fault → String
  | missing => "No such file or directory (os error 2)"
  | .exists => "File exists (os error 17)"
  | notDirectory => "Not a directory (os error 20)"
  | isDirectory => "Is a directory (os error 21)"
  | nameTooLong => "File name too long (os error 36)"
  | tooManyLinks => "Too many levels of symbolic links (os error 40)"
  | nulByte => "file name contained an unexpected NUL byte"
  | notText => "stream did not contain valid UTF-8"

end Fault

/-- A tree of files: the content of the top directory, in which no name occurs twice. -/
structure FileSystem where
  top : Listing
  distinct : top.Distinct

/-- What the bytes between two slashes ask of a walk. -/
inductive Step
  /-- Stay in the directory (nothing, or `.`). -/
  | stay
  /-- Go to the directory above. -/
  | up
  | enter (name : Name)
  deriving DecidableEq

namespace Step

/-- The step that a segment stands for. -/
def ofSegment (segment : Bytes) : Step :=
  match Component.ofSegment? segment with
  | some .up => .up
  | some (.name n) => .enter n
  | _ => .stay

end Step

/-- The steps of a path. A slash at the end is a last `stay`. -/
def Path.steps (p : Path) : List Step := p.segments.map Step.ofSegment

namespace FileSystem

/-- The tree that holds nothing. -/
def empty : FileSystem := ⟨.empty, trivial⟩

/-- The content of the directory at a location. -/
def listing? (fs : FileSystem) (location : Location) : Option Listing := fs.top.descend location

/-- The entry at a location. -/
def entry? (fs : FileSystem) (location : Location) : Option Entry :=
  match location.getLast? with
  | none => some (.dir fs.top)
  | some n => (fs.listing? location.dropLast).bind (·.find? n)

/-- The longest name that an entry can have. -/
def longestName : Nat := 255

/-- The most links that one walk follows. -/
def mostLinks : Nat := 40

/-- The content of the directory that a walk stands in; a walk that stands on a file cannot go on,
and one whose starting directory is gone finds nothing. -/
def standing (fs : FileSystem) (location : Location) : Except Fault Listing :=
  match fs.listing? location, fs.entry? location with
  | some inside, _ => .ok inside
  | none, some _ => .error .notDirectory
  | none, none => .error .missing

/-- Walks the steps from a location. A link is handed to `follow` with the directory that holds it
and the steps behind it; with `lastLink` a link as the last step is itself what the walk finds. -/
def walkWith (fs : FileSystem) (lastLink : Bool)
    (follow : Location → List Step → Except Fault Location) :
    Location → List Step → Except Fault Location
  | location, [] => .ok location
  | location, .stay :: steps => do
    let _ ← fs.standing location
    fs.walkWith lastLink follow location steps
  | location, .up :: steps => do
    let _ ← fs.standing location
    fs.walkWith lastLink follow location.dropLast steps
  | location, .enter n :: steps => do
    let inside ← fs.standing location
    if longestName < n.bytes.length then throw .nameTooLong
    match inside.find? n with
    | none => throw .missing
    | some (.link target) =>
      if lastLink && steps.isEmpty then pure (location ++ [n])
      else follow (if target.isAbsolute then [] else location) (target.steps ++ steps)
    | some _ => fs.walkWith lastLink follow (location ++ [n]) steps

/-- Walks the steps and follows at most `links` links. -/
def walk (fs : FileSystem) (lastLink : Bool) :
    Nat → Location → List Step → Except Fault Location
  | 0 => fs.walkWith lastLink fun _ _ => .error .tooManyLinks
  | links + 1 => fs.walkWith lastLink (fs.walk lastLink links)

/-- The location that a path leads to from the directory `cwd`. -/
def locate (fs : FileSystem) (cwd : Location) (lastLink : Bool) (p : Path) :
    Except Fault Location :=
  if p.bytes = [] then .error .missing
  else if 0 ∈ p.bytes then .error .nulByte
  else fs.walk lastLink mostLinks (if p.isAbsolute then [] else cwd) p.steps

/-- The location that a path leads to when every link is followed: its canonical form. -/
def resolve (fs : FileSystem) (cwd : Location) (p : Path) : Except Fault Location :=
  fs.locate cwd false p

/-- The entry that a path leads to when every link is followed. -/
def find? (fs : FileSystem) (cwd : Location) (p : Path) : Option Entry :=
  match fs.resolve cwd p with
  | .ok location => fs.entry? location
  | .error _ => none

/-- The entry that a path leads to; a link as its last component is not followed. -/
def findUnfollowed? (fs : FileSystem) (cwd : Location) (p : Path) : Option Entry :=
  match fs.locate cwd true p with
  | .ok location => fs.entry? location
  | .error _ => none

end FileSystem

end IgnoreAtlas
