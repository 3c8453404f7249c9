import IgnoreAtlas.Settings.Json
import IgnoreAtlas.Toml.Reader
import IgnoreAtlas.Toml.Writer

/-!
# Settings in TOML

`Settings.render?` is the text in which settings are kept, and `Settings.ofToml?` reads such a text.
Fields of other names are passed over, and what is not set keeps its usual value. There is no way to
write that the depth has no bound, so such a depth is left out. A depth that does not fit in 63 bits
cannot be written at all.
-/

namespace IgnoreAtlas

namespace Toml

/-- The fields that were found for a record. -/
abbrev Record := List (String × Toml)

/-- The fields of a record, by name from a table or in order from an array. A date or a time counts
as a table that has none of them. -/
def record? (names : List String) : Toml → Option Record
  | .table _ fields => some fields
  | .time => some []
  | .array items => some (names.zip items)
  | .tables members => some (names.zip (members.map (Toml.table .stated)))
  | _ => none

/-- A field that is `usual` when it is not there. -/
def Record.optional {α : Type} (record : Record) (name : String) (usual : α)
    (read : Toml → Option α) : Option α :=
  match record.lookup name with
  | some value => read value
  | none => some usual

/-- The text of a text. -/
def text? : Toml → Option String
  | .text content => some content
  | _ => none

/-- A truth value. -/
def truth? : Toml → Option Bool
  | .truth value => some value
  | _ => none

/-- A whole number that is not negative. -/
def nat? : Toml → Option Nat
  | .integer (.ofNat n) => some n
  | _ => none

/-- A list of texts. -/
def texts? : Toml → Option (List String)
  | .array items => items.mapM text?
  | _ => none

/-- Nothing is inside the value. -/
def isHollow : Toml → Bool
  | .array items => items.isEmpty
  | .table _ fields => fields.isEmpty
  | .tables members => members.isEmpty
  | _ => false

/-- One of these words. A word is also read from a table whose first field has that name and nothing
inside; a table in braces must have no other field. -/
def choice? {α : Type} (words : List (String × α)) : Toml → Option α
  | .text word => words.lookup word
  | .table origin ((name, value) :: others) =>
    if value.isHollow && (others.isEmpty || !(origin = .inline || origin = .inlineDotted)) then
      words.lookup name
    else none
  | _ => none

end Toml

namespace DiscoverySettings

/-- The largest depth that can be written. -/
def writtenDepth : Nat := values63 - 1

/-- The line for the depth, if there is one. -/
def depthLine? (maxDepth : Option Nat) : Option String :=
  match maxDepth with
  | none => some ""
  | some depth =>
    if depth ≤ writtenDepth then some (Toml.assignment "max_depth" (toString depth)) else none

def render? (settings : DiscoverySettings) : Option String := do
  let depth ← depthLine? settings.maxDepth
  pure (depth ++
    Toml.assignment "follow_symlinks" (Toml.truthText settings.followLinks) ++
    Toml.assignment "skip_directories" (Toml.arrayText (settings.skipNames.map Toml.quote)) ++
    Toml.assignment "scan_hidden" (Toml.truthText settings.scanHidden))

def ofToml? (value : Toml) : Option DiscoverySettings := do
  let usual : DiscoverySettings := {}
  let record ← value.record? fieldNames
  let maxDepth ← record.optional "max_depth" usual.maxDepth fun v => v.nat?.map some
  let followLinks ← record.optional "follow_symlinks" usual.followLinks Toml.truth?
  let skipNames ←
    record.optional "skip_directories" usual.skipNames fun v => v.texts?.map List.eraseDups
  let scanHidden ← record.optional "scan_hidden" usual.scanHidden Toml.truth?
  pure ⟨maxDepth, followLinks, skipNames, scanHidden⟩

end DiscoverySettings

namespace TrackerSettings

def render (settings : TrackerSettings) : String :=
  Toml.assignment "git_ignore" (Toml.truthText settings.gitIgnore) ++
    Toml.assignment "git_exclude" (Toml.truthText settings.gitExclude) ++
    Toml.assignment "git_global" (Toml.truthText settings.gitGlobal) ++
    Toml.assignment "include_git_dir" (Toml.truthText settings.includeGitDir)

def ofToml? (value : Toml) : Option TrackerSettings := do
  let usual : TrackerSettings := {}
  let record ← value.record? fieldNames
  let gitIgnore ← record.optional "git_ignore" usual.gitIgnore Toml.truth?
  let gitExclude ← record.optional "git_exclude" usual.gitExclude Toml.truth?
  let gitGlobal ← record.optional "git_global" usual.gitGlobal Toml.truth?
  let includeGitDir ← record.optional "include_git_dir" usual.includeGitDir Toml.truth?
  pure ⟨gitIgnore, gitExclude, gitGlobal, includeGitDir⟩

end TrackerSettings

namespace OutputSettings

def render (settings : OutputSettings) : String :=
  Toml.assignment "format" (Toml.quote settings.format.word) ++
    Toml.assignment "time_format" (Toml.quote settings.timeFormat)

def ofToml? (value : Toml) : Option OutputSettings := do
  let usual : OutputSettings := {}
  let record ← value.record? fieldNames
  let format ← record.optional "format" usual.format (Toml.choice? OutputFormat.words)
  let timeFormat ← record.optional "time_format" usual.timeFormat Toml.text?
  pure ⟨format, timeFormat⟩

end OutputSettings

namespace Settings

/-- The text in which settings are kept. -/
def render? (settings : Settings) : Option String := do
  let discovery ← settings.discovery.render?
  let workspacePaths := Toml.arrayText (settings.workspacePaths.map Toml.quote)
  pure (Toml.assignment "workspace_paths" workspacePaths ++
    "\n[discovery]\n" ++ discovery ++
    "\n[tracker]\n" ++ settings.tracker.render ++
    "\n[output]\n" ++ settings.output.render)

/-- The settings in the fields of a table, of a user with this home directory. -/
def ofFields? (home : Path) (fields : Toml.Record) : Option Settings := do
  let usual := Settings.default home
  let workspacePaths ← fields.optional "workspace_paths" usual.workspacePaths Toml.texts?
  let discovery ← fields.optional "discovery" usual.discovery DiscoverySettings.ofToml?
  let tracker ← fields.optional "tracker" usual.tracker TrackerSettings.ofToml?
  let output ← fields.optional "output" usual.output OutputSettings.ofToml?
  pure ⟨workspacePaths, discovery, tracker, output⟩

/-- The settings that a text keeps. -/
def ofToml? (home : Path) (text : String) : Option Settings :=
  (Toml.parse? text).bind (ofFields? home)

end Settings

end IgnoreAtlas
