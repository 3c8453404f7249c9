import IgnoreAtlas.Path.Set
import IgnoreAtlas.Rule.Source
import IgnoreAtlas.Trouble

/-!
# Scanning a repository

A walk goes through the real directories below the root; links are entries and are not followed. It
leaves out every entry named `.git` and every entry that holds one: those are other repositories. A
walk that heeds the rules passes over what they ignore too. What a walk passes over it does not look
into.

The scan takes two walks. What the walk without rules comes to and the walk with rules does not is
ignored; of these entries only those are recorded that are not inside a recorded one.
-/

namespace IgnoreAtlas

/-- The settings for a walk that heeds the rules, or for one that heeds none. -/
def TrackerSettings.heeding (settings : TrackerSettings) (heed : Bool) : TrackerSettings :=
  { settings with
    gitIgnore := heed && settings.gitIgnore
    gitExclude := heed && settings.gitExclude
    gitGlobal := heed && settings.gitGlobal }

namespace Scan

/-- What stays the same during a walk: the root, and the directory that it leads to. -/
structure Job where
  place : Place
  settings : TrackerSettings
  root : Path
  /-- Where the root is. -/
  location : Location
  /-- What is in the root. -/
  inside : Listing
  resolved : place.files.resolve place.cwd root = .ok location
  listed : place.files.listing? location = some inside

namespace Job

/-- The job for a root, if that leads to a directory. -/
def of? (place : Place) (settings : TrackerSettings) (root : Path) : Option Job :=
  match resolved : place.files.resolve place.cwd root with
  | .ok location =>
    match listed : place.files.listing? location with
    | some inside => some { place, settings, root, location, inside, resolved, listed }
    | none => none
  | .error _ => none

/-- The path of the entry that these names lead to below the root. -/
def path (job : Job) (names : List Name) : Path := job.root.descend names

/-- An entry below the root is left to others: it is named `.git`, or it holds something of that
name. -/
def leavesOut (job : Job) (names : List Name) : Bool :=
  names.getLast? == some .git || job.place.exists? ((job.path names).child .git)

/-- The rules ignore the entry. -/
def ignores (job : Job) (chain : Chain) (names : List Name) (isDir : Bool) : Bool :=
  chain.ignores (job.path names).bytes isDir

/-- The walk passes over the entry. -/
def skips (job : Job) (chain : Chain) (names : List Name) (isDir : Bool) : Bool :=
  job.ignores chain names isDir || job.leavesOut names

/-- The chain inside a directory below the root. -/
def enter (job : Job) (chain : Chain) (names : List Name) (inside : Listing) : Chain :=
  chain.enter <|
    Chain.frameOf job.place job.settings (job.path names) (job.location ++ names) inside

/-- The chain for the entries of the root. -/
def rules (job : Job) : Chain :=
  Chain.ofRoot job.place job.settings job.root job.location job.inside

/-- The entries of a directory that the walk comes to, as names below the root, each directory
before what is in it. `above` are the names that lead to the directory, `chain` are its rules. -/
def walkFrom (job : Job) (chain : Chain) (above : List Name) : Listing → List (List Name)
  | .empty => []
  | .file n _ rest | .link n _ rest =>
    let names := above ++ [n]
    (if job.skips chain names false then [] else [names]) ++ job.walkFrom chain above rest
  | .dir n inside rest =>
    let names := above ++ [n]
    (if job.skips chain names true then []
      else names :: job.walkFrom (job.enter chain names inside) names inside) ++
        job.walkFrom chain above rest

/-- The entries that the walk comes to, as names below the root. The root itself is the first. -/
def reached (job : Job) : List (List Name) := [] :: job.walkFrom job.rules [] job.inside

/-- The same job for the walk that heeds the rules, or for the one that heeds none. -/
def heeding (job : Job) (heed : Bool) : Job :=
  { job with settings := job.settings.heeding heed }

/-- The paths that the walk comes to. -/
def walker (job : Job) (heed : Bool) : List Path := (job.heeding heed).reached.map job.path

/-- What the walk with rules comes to. -/
def visible (job : Job) : PathSet := .ofList (job.walker true)

/-- Records an entry of the walk without rules, unless it is visible or inside a recorded one. -/
def note (job : Job) (visible ignored : PathSet) (p : Path) : PathSet :=
  if visible.contains p.components || ignored.holdsBelow job.root (p.ancestors.drop 1) then ignored
  else ignored.insert p

/-- What is ignored below the root. -/
def ignored (job : Job) (visible : PathSet) : PathSet :=
  (job.walker false).foldl (job.note visible) .empty

/-- The record with the entry `.git` of the root, if the settings ask for it and it leads
somewhere. -/
def withGitDir (job : Job) (record : PathSet) : PathSet :=
  let gitDir := job.root.child .git
  if job.settings.includeGitDir && job.place.exists? gitDir then record.insert gitDir else record

/-- What the scan records. -/
def recorded (job : Job) : PathSet := job.withGitDir (job.ignored job.visible)

end Job

/-- What a scan records for a root. A root that is no directory, or that not even a walk comes to,
is not available. -/
def record (place : Place) (settings : TrackerSettings) (root : Path) :
    Except RescanTrouble PathSet :=
  match Job.of? place settings root with
  | some job =>
    if job.visible.size = 0 then .error (.rootUnavailable root)
    else .ok job.recorded
  | none => .error (.rootUnavailable root)

end Scan

end IgnoreAtlas
