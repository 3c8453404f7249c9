import IgnoreAtlas.Tracker.Scan

/-!
# The tracker of one repository

A tracker records paths below the root of its repository: those that its last scan found, and those
that were added since. A path is ignored when it is recorded or is inside a recorded one. A scan
replaces the whole record; a root that is no directory leaves the record as it was.
-/

namespace IgnoreAtlas

/-- The tracker of a repository. -/
structure Tracker where
  root : Path
  settings : TrackerSettings
  /-- The recorded paths. -/
  recorded : PathSet
  /-- A scan is going on. -/
  busy : Bool

namespace Tracker

/-- A tracker for a directory that is the root of a repository with files; it records nothing. -/
def open? (place : Place) (settings : TrackerSettings) (root : Path) : Except Trouble Tracker :=
  match Repository.open? place root with
  | some .worktree => .ok ⟨root, settings, .empty, false⟩
  | some .bare => .error ⟨"裸仓库没有工作区: " ++ root.display, []⟩
  | none => .error ⟨"不是 Git 仓库: " ++ root.display, []⟩

/-- A tracker that is opened is for the root and records nothing. -/
theorem open?_eq_ok {place : Place} {settings : TrackerSettings} {root : Path} {tracker : Tracker}
    (h : open? place settings root = .ok tracker) : tracker = ⟨root, settings, .empty, false⟩ := by
  unfold open? at h
  split at h <;> cases h
  rfl

/-- The number of recorded paths. -/
def ignoredCount (tracker : Tracker) : Nat := tracker.recorded.size

/-- A relative path is meant from the root. -/
def absolute (tracker : Tracker) (file : Path) : Path :=
  if file.isAbsolute then file else tracker.root.join file

/-- Records a file, if it is below the root. -/
def addFile (tracker : Tracker) (file : Path) : Tracker :=
  let p := tracker.absolute file
  if p.startsWith tracker.root && !p.same tracker.root then
    { tracker with recorded := tracker.recorded.insert p }
  else tracker

/-- The file, or a directory around it, is recorded. -/
def containsFile (tracker : Tracker) (file : Path) : Bool :=
  tracker.recorded.holdsBelow tracker.root (tracker.absolute file).ancestors

/-- Forgets all that is recorded. -/
def dispose (tracker : Tracker) : Tracker := { tracker with recorded := .empty }

/-- The recorded entries in their order. What is a directory is looked up now. -/
def ignoredEntries (place : Place) (tracker : Tracker) : List IgnoredEntry :=
  IgnoredEntry.sort (tracker.recorded.paths.map (IgnoredEntry.ofPath place))

/-- Scans the repository. -/
def rescan (place : Place) (tracker : Tracker) : Except RescanTrouble Unit × Tracker :=
  match Scan.record place tracker.settings tracker.root with
  | .ok recorded => (.ok (), { tracker with recorded, busy := false })
  | .error trouble => (.error trouble, { tracker with busy := false })

end Tracker

end IgnoreAtlas
