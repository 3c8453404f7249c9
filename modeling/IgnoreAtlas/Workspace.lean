import IgnoreAtlas.Discovery
import IgnoreAtlas.Holder.Basic
import IgnoreAtlas.Measure
import IgnoreAtlas.Report.Basic
import IgnoreAtlas.Settings.Basic
import IgnoreAtlas.Tracker.Basic

/-!
# Workspaces

A workspace is a set of repositories and the holder of their trackers. The set is settled when the
workspace is opened. The place is handed in with every question, since the files in it can change.
-/

namespace IgnoreAtlas

namespace Tracker

/-- A scan in the form in which the holder asks for it. -/
def scan (place : Place) (tracker : Tracker) : Outcome × Tracker :=
  match tracker.rescan place with
  | (.ok _, tracker) => (.done, tracker)
  | (.error trouble, tracker) => (.failed trouble, tracker)

/-- What trackers do in a place. -/
def tracking (place : Place) : Tracking Tracker where
  isBusy := Tracker.busy
  entries := Tracker.ignoredEntries place
  addFile file tracker := tracker.addFile file
  containsFile file tracker := (tracker.containsFile file, tracker)
  rescan := Tracking.rescanAlone (scan place)
  dispose := Tracker.dispose

end Tracker

namespace RepositorySet

/-- Finds the repository of a file in this set. -/
def router (place : Place) (set : RepositorySet) : Router := ⟨set.rootOf? place, set.withRoot?⟩

end RepositorySet

/-- The repositories of a workspace and their trackers. -/
structure Workspace where
  repositories : RepositorySet
  holder : Holder Tracker

namespace Workspace

/-- The workspace of these repositories. -/
def ofRepositories (place : Place) (settings : TrackerSettings) (repositories : RepositorySet) :
    Except HolderTrouble Workspace :=
  (Holder.build (fun repository => Tracker.open? place settings repository.root)
    repositories.repositories).map (Workspace.mk repositories)

/-- The workspace of the repositories that are found from these directories. -/
def openAt (place : Place) (settings : Settings) (starts : List Path) :
    Except HolderTrouble Workspace :=
  ofRepositories place settings.tracker (Discovery.discover place settings.discovery starts)

/-- Scans all repositories. -/
def rescan (place : Place) (react : Update.Reactions) (workspace : Workspace) :
    Sweep × Workspace :=
  let (sweep, holder) := workspace.holder.startRescan (Tracker.tracking place) react
  (sweep, { workspace with holder })

/-- The number of ignored entries. -/
def entryCount (place : Place) (workspace : Workspace) : Nat :=
  (workspace.holder.values (Tracker.tracking place)).length

/-- The summary of a round of scans that began then and took so long. -/
def summary (place : Place) (workspace : Workspace) (startedAt : Calendar.Moment)
    (duration : Duration) : ScanSummary :=
  ⟨startedAt, duration, workspace.holder.repositories.length, workspace.entryCount place⟩

/-- A file is ignored, and the repository it belongs to. -/
def checkFile (place : Place) (workspace : Workspace) (file : Path) : Bool × Option Repository :=
  let router := workspace.repositories.router place
  let (ignored, holder) :=
    workspace.holder.containsFile place router (Tracker.tracking place) file
  (ignored, holder.repositoryFor? place router file)

/-- The result for each of these files. -/
def checkFiles (place : Place) (workspace : Workspace) (files : List Path) : List CheckResult :=
  files.map fun file =>
    let path := place.normalize file
    let (ignored, repository) := workspace.checkFile place path
    ⟨path, ignored, repository.map Repository.root⟩

/-- The ignored entries of each repository. -/
def entriesOf (place : Place) (workspace : Workspace) : List (Repository × List IgnoredEntry) :=
  workspace.repositories.repositories.map fun repository =>
    (repository, workspace.holder.valuesFor (Tracker.tracking place) repository)

/-- What was found, with a summary. -/
def scanReport (place : Place) (workspace : Workspace) (summary : ScanSummary) : ScanReport :=
  ⟨summary, (workspace.entriesOf place).map fun (repository, entries) =>
    ⟨repository.name, repository.root, entries⟩⟩

/-- The names of entries that are left out of the numbers. -/
def uncounted : List String := [".git"]

/-- The numbers of each repository. -/
def stats (place : Place) (workspace : Workspace) : List IgnoreStats :=
  Measure.statsOfEach place uncounted <|
    (workspace.entriesOf place).map fun (repository, entries) => (repository.root, entries)

end Workspace

end IgnoreAtlas
