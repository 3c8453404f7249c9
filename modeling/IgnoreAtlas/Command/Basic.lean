import IgnoreAtlas.Report.Print
import IgnoreAtlas.Settings.File
import IgnoreAtlas.Workspace

/-!
# Commands

What a user can ask for: to list the repositories of a workspace, to scan it, to check files in it,
to see its numbers, and to look at or reset the settings.

A command on a workspace is carried out in two stages, so that a clock can be read before and after
the first one: `WorkspaceCommand.begin` finds the repositories and scans them, and
`WorkspaceCommand.print` tells what was found.
-/

namespace IgnoreAtlas

/-- What to do with a workspace. -/
inductive Task
  | listRepositories
  | scan
  | check (files : List Path)
  | stats
  deriving DecidableEq

/-- What to do with the settings. -/
inductive SettingsTask
  | show
  | reset
  | path
  deriving DecidableEq

/-- A command. -/
inductive Command
  /-- Do something with the workspace of these directories. Without directories those of the
  settings are taken, and without a format that of the settings. -/
  | workspace (task : Task) (directories : List String) (format : Option OutputFormat)
  | settings (task : SettingsTask)
  deriving DecidableEq

/-- A task, the directories to do it in, and how to show the result. -/
structure WorkspaceCommand where
  task : Task
  directories : List Path
  format : OutputFormat
  deriving DecidableEq

/-- What the first stage of a command has found. -/
inductive Findings
  | repositories (repositories : RepositorySet)
  | scanned (workspace : Workspace)

/-- When a scan began, and how long it took. -/
structure Timing where
  startedAt : Calendar.Moment
  duration : Duration
  deriving DecidableEq

namespace WorkspaceCommand

/-- Nobody listens to the scans of a command. -/
def silence : Update.Reactions := fun _ _ => {}

/-- Opens the workspace and scans it. -/
def scanned (place : Place) (settings : Settings) (directories : List Path) :
    Except HolderTrouble Workspace := do
  let workspace ← Workspace.openAt place settings directories
  match workspace.rescan place silence with
  | (⟨_, .failed trouble⟩, _) => throw trouble
  | (_, workspace) => pure workspace

/-- The first stage: finds the repositories, and scans them unless they are only to be listed. -/
def begin (place : Place) (settings : Settings) (command : WorkspaceCommand) :
    Except HolderTrouble Findings :=
  match command.task with
  | .listRepositories =>
    .ok (.repositories (Discovery.discover place settings.discovery command.directories))
  | _ => (scanned place settings command.directories).map .scanned

/-- The second stage: tells what was found. -/
def print (place : Place) (settings : Settings) (command : WorkspaceCommand) (timing : Timing) :
    Findings → Printed
  | .repositories set => Report.printRepositories command.format set.repositories
  | .scanned workspace =>
    match command.task with
    | .listRepositories =>
      Report.printRepositories command.format workspace.repositories.repositories
    | .scan =>
      Report.printScan command.format settings.output.timeFormat
        (workspace.scanReport place (workspace.summary place timing.startedAt timing.duration))
    | .check files => Report.printCheck command.format (workspace.checkFiles place files)
    | .stats => Report.printStats command.format (workspace.stats place)

end WorkspaceCommand

/-- How a command ends. -/
inductive Ending
  | done
  /-- It failed, and this is what is said about it. -/
  | failed (message : String)
  | panicked (message : String)
  deriving DecidableEq

/-- What a command has done: the text it printed, the files as they are now, and how it ended. -/
structure Done where
  text : String
  files : FileSystem
  ending : Ending

namespace Done

/-- A report has been printed. -/
def ofPrinted (files : FileSystem) (printed : Printed) : Done :=
  ⟨printed.text, files,
    match printed.fault with
    | none => .done
    | some .layout => .panicked (PrintFault.message .layout)
    | some fault => .failed fault.message⟩

/-- Nothing has been printed, because something failed. -/
def failed (files : FileSystem) (message : String) : Done := ⟨"", files, .failed message⟩

/-- The status that the program ends with. -/
def status (finish : Done) : Nat :=
  match finish.ending with
  | .done => 0
  | .failed _ => 1
  | .panicked _ => 101

end Done

namespace SettingsTask

/-- Carries out a task with these settings, which are kept in `file`. -/
def run (place : Place) (settings : Settings) (file : Path) : SettingsTask → Done
  | .show =>
    match settings.render? with
    | some text => ⟨text ++ "\n", place.files, .done⟩
    | none => .failed place.files (SettingsTrouble.message .text)
  | .reset =>
    match (Settings.default place.home).save place file with
    | (none, files) => ⟨"配置已重置: " ++ file.display ++ "\n", files, .done⟩
    | (some trouble, files) => .failed files trouble.message
  | .path => ⟨file.display ++ "\n", place.files, .done⟩

end SettingsTask

/-- A command, and the file of settings that was named. -/
structure Request where
  command : Command
  settingsFile : Option Path := none
  verbose : Bool := false
  deriving DecidableEq

/-- A request whose settings have been loaded. -/
structure Prepared where
  place : Place
  settings : Settings
  file : Path
  command : Command

namespace Request

/-- Loads the settings. The usual file is made if it is missing, a named one is not. -/
def prepare (place : Place) (request : Request) : Except Done Prepared :=
  let (loaded, files) := match request.settingsFile with
    | some file => (Settings.load place file, place.files)
    | none => Settings.loadOrCreate place
  match loaded with
  | .ok settings =>
    .ok ⟨{ place with files }, settings, request.settingsFile.getD (Settings.usualFile place),
      request.command⟩
  | .error trouble => .error (.failed files trouble.message)

end Request

namespace Prepared

/-- The command on a workspace that is asked for, if it is one. -/
def workspaceCommand? (prepared : Prepared) : Option WorkspaceCommand :=
  match prepared.command with
  | .workspace task directories format =>
    some ⟨task, (prepared.settings.resolvePaths directories).map Path.ofString,
      format.getD prepared.settings.output.format⟩
  | .settings _ => none

/-- The first stage of the command. -/
def begin (prepared : Prepared) : Except Done (Option Findings) :=
  match prepared.workspaceCommand? with
  | some command =>
    match command.begin prepared.place prepared.settings with
    | .ok findings => .ok (some findings)
    | .error trouble => .error (.failed prepared.place.files trouble.message)
  | none => .ok none

/-- The second stage of the command. -/
def finish (prepared : Prepared) (timing : Timing) (findings : Option Findings) : Done :=
  match prepared.command, prepared.workspaceCommand?, findings with
  | .settings task, _, _ => task.run prepared.place prepared.settings prepared.file
  | _, some command, some findings =>
    .ofPrinted prepared.place.files
      (command.print prepared.place prepared.settings timing findings)
  | _, _, _ => ⟨"", prepared.place.files, .done⟩

end Prepared

/-- Carries out a request whose scans take this time. -/
def Request.run (place : Place) (timing : Timing) (request : Request) : Done :=
  match request.prepare place with
  | .error finish => finish
  | .ok prepared =>
    match prepared.begin with
    | .error finish => finish
    | .ok findings => prepared.finish timing findings

end IgnoreAtlas
