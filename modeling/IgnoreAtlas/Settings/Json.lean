import IgnoreAtlas.Json.Record
import IgnoreAtlas.Settings.Basic

/-!
# Settings in JSON

The names of the fields, and the JSON form of settings. What is not set keeps its usual value.
-/

namespace IgnoreAtlas

namespace OutputFormat

/-- The words for the formats. -/
def words : List (String × OutputFormat) := [("table", .table), ("json", .json)]

/-- The word for a format. -/
def word : OutputFormat → String
  | .table => "table"
  | .json => "json"

def toJson (format : OutputFormat) : Json := .string format.word

def ofJson? : Json → Option OutputFormat := Json.word? words

end OutputFormat

namespace DiscoverySettings

/-- The fields of these settings. -/
def fieldNames : List String := ["max_depth", "follow_symlinks", "skip_directories", "scan_hidden"]

/-- A depth; `null` is a depth without a bound. -/
def depth? : Json → Option (Option Nat)
  | .null => some none
  | value => value.nat64?.map some

/-- Names, each of them once. -/
def names? (value : Json) : Option (List String) :=
  (Json.list? Json.text? value).map List.eraseDups

/-- The names in their order. -/
def sortedNames (settings : DiscoverySettings) : List String :=
  settings.skipNames.mergeSort fun a b => !decide (b < a)

def toJson (settings : DiscoverySettings) : Json :=
  .object [
    ("max_depth", (settings.maxDepth.map Json.nat).getD .null),
    ("follow_symlinks", .bool settings.followLinks),
    ("skip_directories", .array (settings.sortedNames.map Json.string)),
    ("scan_hidden", .bool settings.scanHidden)]

def ofJson? (value : Json) : Option DiscoverySettings := do
  let usual : DiscoverySettings := {}
  let record ← value.record? fieldNames
  let maxDepth ← record.optional "max_depth" usual.maxDepth depth?
  let followLinks ← record.optional "follow_symlinks" usual.followLinks Json.bool?
  let skipNames ← record.optional "skip_directories" usual.skipNames names?
  let scanHidden ← record.optional "scan_hidden" usual.scanHidden Json.bool?
  pure ⟨maxDepth, followLinks, skipNames, scanHidden⟩

end DiscoverySettings

namespace TrackerSettings

/-- The fields of these settings. -/
def fieldNames : List String := ["git_ignore", "git_exclude", "git_global", "include_git_dir"]

def toJson (settings : TrackerSettings) : Json :=
  .object [("git_ignore", .bool settings.gitIgnore), ("git_exclude", .bool settings.gitExclude),
    ("git_global", .bool settings.gitGlobal), ("include_git_dir", .bool settings.includeGitDir)]

def ofJson? (value : Json) : Option TrackerSettings := do
  let usual : TrackerSettings := {}
  let record ← value.record? fieldNames
  let gitIgnore ← record.optional "git_ignore" usual.gitIgnore Json.bool?
  let gitExclude ← record.optional "git_exclude" usual.gitExclude Json.bool?
  let gitGlobal ← record.optional "git_global" usual.gitGlobal Json.bool?
  let includeGitDir ← record.optional "include_git_dir" usual.includeGitDir Json.bool?
  pure ⟨gitIgnore, gitExclude, gitGlobal, includeGitDir⟩

end TrackerSettings

namespace OutputSettings

/-- The fields of these settings. -/
def fieldNames : List String := ["format", "time_format"]

def toJson (settings : OutputSettings) : Json :=
  .object [("format", settings.format.toJson), ("time_format", .string settings.timeFormat)]

def ofJson? (value : Json) : Option OutputSettings := do
  let usual : OutputSettings := {}
  let record ← value.record? fieldNames
  let format ← record.optional "format" usual.format OutputFormat.ofJson?
  let timeFormat ← record.optional "time_format" usual.timeFormat Json.text?
  pure ⟨format, timeFormat⟩

end OutputSettings

namespace Settings

/-- The fields of all settings. -/
def fieldNames : List String := ["workspace_paths", "discovery", "tracker", "output"]

def toJson (settings : Settings) : Json :=
  .object [
    ("workspace_paths", .array (settings.workspacePaths.map Json.string)),
    ("discovery", settings.discovery.toJson),
    ("tracker", settings.tracker.toJson),
    ("output", settings.output.toJson)]

/-- The settings of a user with this home directory. -/
def ofJson? (home : Path) (value : Json) : Option Settings := do
  let usual := Settings.default home
  let record ← value.record? fieldNames
  let workspacePaths ←
    record.optional "workspace_paths" usual.workspacePaths (Json.list? Json.text?)
  let discovery ← record.optional "discovery" usual.discovery DiscoverySettings.ofJson?
  let tracker ← record.optional "tracker" usual.tracker TrackerSettings.ofJson?
  let output ← record.optional "output" usual.output OutputSettings.ofJson?
  pure ⟨workspacePaths, discovery, tracker, output⟩

end Settings

end IgnoreAtlas
