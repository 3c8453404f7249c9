import IgnoreAtlas.Calendar.Reading
import IgnoreAtlas.Holder.Change
import IgnoreAtlas.Json.Record
import IgnoreAtlas.Json.Writer
import IgnoreAtlas.Report.Basic

/-!
# Reports in JSON

The JSON forms of what reports are made of. A path is a string, so a path that is no text has no
form, and nor has anything that holds one. The forms of single values are also read back.
-/

namespace IgnoreAtlas

namespace Path

/-- A path that is a text. -/
def toJson? (p : Path) : Option Json := p.text?.map Json.string

/-- A path from its text. -/
def ofJson? (value : Json) : Option Path := value.text?.map ofString

end Path

namespace Repository

def toJson? (repository : Repository) : Option Json := do
  let root ← repository.root.toJson?
  pure (.object [("name", .string repository.name), ("root", root)])

def ofJson? (value : Json) : Option Repository := do
  let record ← value.record? ["name", "root"]
  let name ← record.required "name" Json.text?
  let root ← record.required "root" Path.ofJson?
  pure ⟨name, root⟩

end Repository

namespace IgnoredEntry

def toJson? (entry : IgnoredEntry) : Option Json := do
  let path ← entry.path.toJson?
  pure (.object [("path", path), ("is_directory", .bool entry.isDirectory)])

def ofJson? (value : Json) : Option IgnoredEntry := do
  let record ← value.record? ["path", "is_directory"]
  let path ← record.required "path" Path.ofJson?
  let isDirectory ← record.required "is_directory" Json.bool?
  pure ⟨path, isDirectory⟩

end IgnoredEntry

namespace IgnoreStats

def toJson? (stats : IgnoreStats) : Option Json := do
  let root ← stats.root.toJson?
  pure (.object [("root", root), ("ignored_entries", .nat stats.entries),
    ("ignored_file_count", .nat stats.files), ("ignored_size", .nat stats.size)])

def ofJson? (value : Json) : Option IgnoreStats := do
  let record ← value.record? ["root", "ignored_entries", "ignored_file_count", "ignored_size"]
  let root ← record.required "root" Path.ofJson?
  let entries ← record.required "ignored_entries" Json.nat64?
  let files ← record.required "ignored_file_count" Json.nat64?
  let size ← record.required "ignored_size" Json.nat64?
  pure ⟨root, entries, files, size⟩

end IgnoreStats

namespace HolderKind

/-- The words for the kinds. -/
def words : List (String × HolderKind) := [("Ignored", .ignored)]

def toJson : HolderKind → Json
  | .ignored => .string "Ignored"

def ofJson? : Json → Option HolderKind := Json.word? words

end HolderKind

namespace Duration

def toJson (d : Duration) : Json := .object [("secs", .nat d.seconds), ("nanos", .nat d.nanos)]

/-- The fields of a duration. -/
def fieldNames : List String := ["secs", "nanos"]

/-- A value has no other fields than these. -/
def hasOnly (names : List String) : Json → Bool
  | .object fields => fields.all fun (name, _) => names.contains name
  | _ => true

/-- A duration has no other fields, and its billionths fit in 32 bits. -/
def ofJson? (value : Json) : Option Duration := do
  if !hasOnly fieldNames value then none
  else
    let record ← value.record? fieldNames
    let seconds ← record.required "secs" Json.nat64?
    let nanos ← record.required "nanos" Json.nat64?
    if nanos < values32 then ofNumbers? seconds nanos else none

end Duration

namespace ScanSummary

def toJson (summary : ScanSummary) : Json :=
  .object [("started_at", .string summary.startedAt.written),
    ("duration", summary.duration.toJson), ("repositories", .nat summary.repositories),
    ("ignored_entries", .nat summary.ignoredEntries)]

def ofJson? (value : Json) : Option ScanSummary := do
  let record ← value.record? ["started_at", "duration", "repositories", "ignored_entries"]
  let startedAt ← record.required "started_at" fun v => v.text?.bind Calendar.Moment.ofText?
  let duration ← record.required "duration" Duration.ofJson?
  let repositories ← record.required "repositories" Json.nat64?
  let ignoredEntries ← record.required "ignored_entries" Json.nat64?
  pure ⟨startedAt, duration, repositories, ignoredEntries⟩

end ScanSummary

namespace RepositoryReport

def toJson? (report : RepositoryReport) : Option Json := do
  let root ← report.root.toJson?
  let ignored ← report.ignored.mapM IgnoredEntry.toJson?
  pure (.object [("name", .string report.name), ("root", root), ("ignored", .array ignored)])

end RepositoryReport

namespace ScanReport

def toJson? (report : ScanReport) : Option Json := do
  let repositories ← report.repositories.mapM RepositoryReport.toJson?
  pure (.object [("summary", report.summary.toJson), ("repositories", .array repositories)])

end ScanReport

namespace CheckResult

def toJson? (result : CheckResult) : Option Json := do
  let path ← result.path.toJson?
  let repository ← match result.repository with
    | some root => root.toJson?
    | none => some .null
  pure (.object [("path", path), ("ignored", .bool result.ignored), ("repository", repository)])

end CheckResult

namespace Printed

/-- A JSON form as it is shown. -/
def ofJson? : Option Json → Printed
  | some value => ⟨value.pretty ++ "\n", none⟩
  | none => ⟨"", some .pathNotText⟩

/-- The forms of the members of a list as they are shown. -/
def ofList? {α : Type} (toJson? : α → Option Json) (members : List α) : Printed :=
  ofJson? ((members.mapM toJson?).map Json.array)

end Printed

end IgnoreAtlas
