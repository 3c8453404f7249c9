import IgnoreAtlas.Path.Basic

/-!
# Settings

What a user can set: the directories of the workspace, how repositories are looked for in them,
which rules decide, and how results are shown.
-/

namespace IgnoreAtlas

/-- How results are shown. -/
inductive OutputFormat
  | table
  | json
  deriving DecidableEq

/-- How repositories are looked for. -/
structure DiscoverySettings where
  /-- How many levels below a starting directory are looked at; without a number, all. -/
  maxDepth : Option Nat := some 6
  followLinks : Bool := false
  /-- Names of directories that are not looked into. -/
  skipNames : List String :=
    ["System", "Library", "Applications", "private", "proc", "sys", ".Trash", ".Trashes",
      ".Spotlight-V100", ".fseventsd", "node_modules", "target", "dist", "build", "__pycache__",
      ".pytest_cache", "venv", ".venv", ".svn", ".hg", ".idea", ".vscode"]
  /-- Directories whose names begin with a dot are looked into. -/
  scanHidden : Bool := false
  deriving DecidableEq

/-- Which rules decide in a repository. -/
structure TrackerSettings where
  /-- The files `.gitignore`. -/
  gitIgnore : Bool := true
  /-- The file `.git/info/exclude`. -/
  gitExclude : Bool := true
  /-- The user's own rules for all repositories. -/
  gitGlobal : Bool := true
  /-- The entry `.git` of the root counts as ignored. -/
  includeGitDir : Bool := true
  deriving DecidableEq

/-- How output looks. -/
structure OutputSettings where
  format : OutputFormat := .table
  timeFormat : String := "%Y-%m-%d %H:%M:%S"
  deriving DecidableEq

/-- All settings. -/
structure Settings where
  workspacePaths : List String
  discovery : DiscoverySettings := {}
  tracker : TrackerSettings := {}
  output : OutputSettings := {}
  deriving DecidableEq

namespace Settings

/-- The directories of the home directory that make up the workspace unless others are set. -/
def usualDirectories : List String := ["Code", "Projects", "Development"]

/-- The settings of a user who has set nothing. -/
def default (home : Path) : Settings :=
  { workspacePaths := usualDirectories.map fun name => (home.join (.ofString name)).display }

/-- The directories to work on: those that were asked for, or else those of the settings. -/
def resolvePaths (settings : Settings) (asked : List String) : List String :=
  if asked.isEmpty then settings.workspacePaths else asked

end Settings

end IgnoreAtlas
