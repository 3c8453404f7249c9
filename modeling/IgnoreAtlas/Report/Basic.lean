import IgnoreAtlas.Calendar.Moment
import IgnoreAtlas.Measure
import IgnoreAtlas.Units.Duration

/-!
# Reports

What the commands have to tell: a scan with its summary, whether files are ignored, and the numbers
of each repository. `Printed` is a report in the form in which it is shown; showing it can fail.
-/

namespace IgnoreAtlas

/-- A round of scans in numbers. -/
structure ScanSummary where
  startedAt : Calendar.Moment
  duration : Duration
  repositories : Nat
  ignoredEntries : Nat
  deriving DecidableEq

/-- What a repository ignores. -/
structure RepositoryReport where
  name : String
  root : Path
  ignored : List IgnoredEntry
  deriving DecidableEq

/-- A round of scans and what it found. -/
structure ScanReport where
  summary : ScanSummary
  repositories : List RepositoryReport
  deriving DecidableEq

/-- Whether a file is ignored, and the root of the repository that it belongs to. -/
structure CheckResult where
  path : Path
  ignored : Bool
  repository : Option Path
  deriving DecidableEq

/-- Why a report cannot be shown. -/
inductive PrintFault
  /-- A path is no text, and JSON has only texts. -/
  | pathNotText
  /-- The text for the form of times is no layout. -/
  | layout
  deriving DecidableEq

namespace PrintFault

/-- The words for the fault. -/
def message : PrintFault → String
  | pathNotText => "path contains invalid UTF-8 characters"
  | layout => "no layout for times"

end PrintFault

/-- A report as it is shown, and the fault that ended the showing. -/
structure Printed where
  text : String
  fault : Option PrintFault := none
  deriving DecidableEq

end IgnoreAtlas
