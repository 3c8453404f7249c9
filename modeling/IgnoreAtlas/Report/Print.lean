import IgnoreAtlas.Calendar.Layout
import IgnoreAtlas.Report.Json
import IgnoreAtlas.Settings.Basic
import IgnoreAtlas.Text
import IgnoreAtlas.Units.Size

/-!
# Showing reports

Every report has a table for people and a form in JSON. Tables show paths as text, with U+FFFD for
what is not text.
-/

namespace IgnoreAtlas.Report

/-- Lines, each with its end. -/
def lines (texts : List String) : String := String.join (texts.map (· ++ "\n"))

/-- The table of repositories. -/
def repositoryTable (repositories : List Repository) : String :=
  if repositories.isEmpty then lines ["没有发现仓库"]
  else lines (repositories.map fun repository =>
    Text.padRight 24 repository.name ++ " " ++ repository.root.display)

/-- The repositories of a workspace. -/
def printRepositories (format : OutputFormat) (repositories : List Repository) : Printed :=
  match format with
  | .json => .ofList? Repository.toJson? repositories
  | .table => ⟨repositoryTable repositories, none⟩

/-- The line of an ignored entry: its path below the root, and a slash for a directory. -/
def entryLine (root : Path) (entry : IgnoredEntry) : String :=
  "    " ++ ((entry.path.stripBase? root).getD entry.path).display ++
    if entry.isDirectory then "/" else ""

/-- The lines of a repository. -/
def repositoryLines (report : RepositoryReport) : List String :=
  (report.name ++ " (" ++ report.root.display ++ ")") ::
    report.ignored.map (entryLine report.root)

/-- The line under a scan, if the text for the form of times is a layout. -/
def summaryLine? (layout : String) (summary : ScanSummary) : Option String :=
  (summary.startedAt.format? layout).map fun time =>
    "扫描于 " ++ time ++ "，耗时 " ++ summary.duration.format ++ "：" ++
      toString summary.repositories ++ " 个仓库，" ++ toString summary.ignoredEntries ++
      " 个被忽略的条目"

/-- A scan. The repositories are shown before the summary is found to have no form. -/
def printScan (format : OutputFormat) (layout : String) (report : ScanReport) : Printed :=
  match format with
  | .json => .ofJson? report.toJson?
  | .table =>
    let above := lines (report.repositories.flatMap repositoryLines)
    match summaryLine? layout report.summary with
    | some line => ⟨above ++ lines ["", line], none⟩
    | none => ⟨above, some .layout⟩

/-- The line of a checked file. -/
def checkLine (result : CheckResult) : String :=
  (if result.ignored then "已忽略" else "未忽略") ++ "  " ++ result.path.display ++ "  (" ++
    (match result.repository with
      | some root => root.display
      | none => "不属于任何仓库") ++ ")"

/-- Checked files. -/
def printCheck (format : OutputFormat) (results : List CheckResult) : Printed :=
  match format with
  | .json => .ofList? CheckResult.toJson? results
  | .table => ⟨lines (results.map checkLine), none⟩

/-- The line of the numbers of a repository. -/
def statsLine (stats : IgnoreStats) : String :=
  Text.padRight 48 stats.root.display ++ " " ++ Text.padLeft 6 (toString stats.entries) ++
    " 项 " ++ Text.padLeft 8 (toString stats.files) ++ " 个文件 " ++
    Text.padLeft 12 (Units.formatSize stats.size)

/-- The sum of all sizes, a number of 64 bits. -/
def totalSize (stats : List IgnoreStats) : Nat :=
  stats.foldl (fun total s => total + s.size) 0 % values64

/-- The line under the numbers. -/
def totalLine (stats : List IgnoreStats) : String :=
  "共 " ++ toString stats.length ++ " 个仓库，被忽略内容合计 " ++ Units.formatSize (totalSize stats)

/-- The numbers of repositories. -/
def printStats (format : OutputFormat) (stats : List IgnoreStats) : Printed :=
  match format with
  | .json => .ofList? IgnoreStats.toJson? stats
  | .table => ⟨lines (stats.map statsLine ++ ["", totalLine stats]), none⟩

end IgnoreAtlas.Report
