import IgnoreAtlas.Holder.Change
import IgnoreAtlas.Holder.Registry
import IgnoreAtlas.Update.Bus

/-!
# The holder of all trackers

The holder has one tracker for each repository. A question about a file goes to the tracker of the
repository that the file belongs to; a round of scans goes to all of them.

Trackers are kept in a list, and the registry holds their numbers: a tracker stays what it is when
the registry lets go of it. What trackers do is a parameter, `Tracking`, so the holder works over
any kind of them. A scan is handed the whole holder, because a tracker may use the holder while it
scans.

A round of scans announces that it starts, scans every tracker of the registry as it was then, and
announces that it has finished; failures and panics of trackers come out only after that.
-/

namespace IgnoreAtlas

/-- The number of a tracker. -/
abbrev Handle := Nat

/-- The trackers of a workspace. -/
structure Holder (σ : Type) where
  registry : Registry Handle
  trackers : List σ
  bus : Update.Bus

/-- How the scan of one tracker ends. -/
inductive Outcome
  | done
  | failed (trouble : RescanTrouble)
  | panicked (payload : String)
  deriving DecidableEq

/-- What trackers do. -/
structure Tracking (σ : Type) where
  isBusy : σ → Bool
  entries : σ → List IgnoredEntry
  addFile : Path → σ → σ
  containsFile : Path → σ → Bool × σ
  rescan : Handle → Holder σ → Outcome × Holder σ
  dispose : σ → σ

/-- How a round of scans ends. -/
inductive SweepEnd
  | done
  | failed (trouble : HolderTrouble)
  | panicked (payload : String)
  deriving DecidableEq

/-- A step of a round of scans. -/
inductive Act
  | announced (event : Update.Event) (calls : List Update.Call)
  | scanned (repository : Repository) (tracker : Handle) (outcome : Outcome)
  deriving DecidableEq

/-- A round of scans: its steps, and how it ends. -/
structure Sweep where
  acts : List Act
  ending : SweepEnd
  deriving DecidableEq

/-- The failures of a round so far: the first one with the root of its repository, and their
number. -/
structure Failures where
  first? : Option (Path × RescanTrouble) := none
  count : Nat := 0
  deriving DecidableEq

namespace Failures

/-- One more failure; the first one stays. -/
def add (failures : Failures) (root : Path) (trouble : RescanTrouble) : Failures :=
  ⟨failures.first?.or (some (root, trouble)), failures.count + 1⟩

/-- How a round with these failures ends. -/
def ending (failures : Failures) : SweepEnd :=
  match failures.first? with
  | some (root, trouble) => .failed (.rescan root failures.count trouble)
  | none => .done

end Failures

namespace Holder

variable {σ : Type}

/-- Makes the tracker of a repository, which gets the next number. -/
def makeNext (make : Repository → Except Trouble σ) (repository : Repository) (trackers : List σ) :
    Except Trouble Handle × List σ :=
  match make repository with
  | .ok tracker => (.ok trackers.length, trackers ++ [tracker])
  | .error trouble => (.error trouble, trackers)

/-- The holder for these repositories. -/
def build (make : Repository → Except Trouble σ) (repositories : List Repository) :
    Except HolderTrouble (Holder σ) :=
  match Registry.build (makeNext make) [] repositories with
  | (.ok registry, trackers) => .ok ⟨registry, trackers, {}⟩
  | (.error trouble, _) => .error trouble

/-- The holder holds what version control ignores. -/
def kind (_ : Holder σ) : HolderKind := .ignored

/-- Version control has started. Trackers look after themselves, so nothing is to be done. -/
def versionControlStarted (holder : Holder σ) : Holder σ := holder

/-- Paths have changed. The records change in scans only, so nothing is to be done. -/
def adjust (holder : Holder σ) (_ : DirtyScope) : Holder σ := holder

/-- The repositories that have a tracker. -/
def repositories (holder : Holder σ) : List Repository := holder.registry.repositories

/-- The tracker of that number. -/
def tracker? (holder : Holder σ) (handle : Handle) : Option σ := holder.trackers[handle]?

/-- The holder with one tracker changed. -/
def update (holder : Holder σ) (handle : Handle) (change : σ → σ) : Holder σ :=
  { holder with trackers := holder.trackers.modify handle change }

/-- The trackers of the registry. -/
def registered (holder : Holder σ) : List σ := holder.registry.trackers.filterMap holder.tracker?

/-- Some tracker is scanning. -/
def isBusy (tracking : Tracking σ) (holder : Holder σ) : Bool :=
  holder.registered.any tracking.isBusy

/-- All ignored entries. -/
def values (tracking : Tracking σ) (holder : Holder σ) : List IgnoredEntry :=
  holder.registered.flatMap tracking.entries

/-- The ignored entries of a repository. -/
def valuesFor (tracking : Tracking σ) (holder : Holder σ) (repository : Repository) :
    List IgnoredEntry :=
  match (holder.registry.get? repository).bind holder.tracker? with
  | some tracker => tracking.entries tracker
  | none => []

/-- The tracker that a file belongs to, and the file's one spelling. -/
def locate? (place : Place) (router : Router) (holder : Holder σ) (file : Path) :
    Option (Handle × Path) :=
  let file := place.normalize file
  (router.locate? holder.registry file).map (·, file)

/-- The repository that a file belongs to, as the registry knows it. -/
def repositoryFor? (place : Place) (router : Router) (holder : Holder σ) (file : Path) :
    Option Repository := do
  let (handle, _) ← locate? place router holder file
  (holder.registry.entries.find? (·.2 == handle)).map (·.1)

/-- Adds a file to the record of its repository; a file of no repository is added nowhere. -/
def addFile (place : Place) (router : Router) (tracking : Tracking σ) (holder : Holder σ)
    (file : Path) : Holder σ :=
  match locate? place router holder file with
  | some (handle, file) => holder.update handle (tracking.addFile file)
  | none => holder

/-- Asks the tracker of a file whether it is ignored. -/
def containsFile (place : Place) (router : Router) (tracking : Tracking σ) (holder : Holder σ)
    (file : Path) : Bool × Holder σ :=
  match locate? place router holder file with
  | some (handle, file) =>
    match holder.tracker? handle with
    | some tracker =>
      let (answer, tracker) := tracking.containsFile file tracker
      (answer, holder.update handle fun _ => tracker)
    | none => (false, holder)
  | none => (false, holder)

/-- Scans the trackers behind the one of `broken`, whose scan has panicked. The entries are gone
through from the front once more, and nothing is scanned before that repository is `reached`. How
these scans end is of no account. -/
def scanBehind (tracking : Tracking σ) (broken : Repository) :
    Bool → Holder σ → List (Repository × Handle) → List Act × Holder σ
  | _, holder, [] => ([], holder)
  | true, holder, (repository, handle) :: rest =>
    let (outcome, holder) := tracking.rescan handle holder
    let (acts, holder) := scanBehind tracking broken true holder rest
    (.scanned repository handle outcome :: acts, holder)
  | false, holder, (repository, _) :: rest =>
    scanBehind tracking broken (repository.same broken) holder rest

/-- Scans the trackers of the entries that are left of a round; `all` are the entries of the whole
round. A panic breaks off the round, but the trackers behind are scanned before it comes out. -/
def scanInTurn (tracking : Tracking σ) (all : List (Repository × Handle)) :
    Failures → Holder σ → List (Repository × Handle) → List Act × SweepEnd × Holder σ
  | failures, holder, [] => ([], failures.ending, holder)
  | failures, holder, (repository, handle) :: rest =>
    match tracking.rescan handle holder with
    | (.done, holder) =>
      let (acts, ending, holder) := scanInTurn tracking all failures holder rest
      (.scanned repository handle .done :: acts, ending, holder)
    | (.failed trouble, holder) =>
      let (acts, ending, holder) :=
        scanInTurn tracking all (failures.add repository.root trouble) holder rest
      (.scanned repository handle (.failed trouble) :: acts, ending, holder)
    | (.panicked payload, holder) =>
      let (acts, holder) := scanBehind tracking repository false holder all
      (.scanned repository handle (.panicked payload) :: acts, .panicked payload, holder)

/-- A round of scans. However the scans end, the finish is announced once. -/
def startRescan (tracking : Tracking σ) (react : Update.Reactions) (holder : Holder σ) :
    Sweep × Holder σ :=
  let snapshot := holder.registry.entries
  let (startCalls, bus) := holder.bus.notify react .started
  let (acts, ending, holder) := scanInTurn tracking snapshot {} { holder with bus } snapshot
  let (finishCalls, bus) := holder.bus.notify react .finished
  (⟨.announced .started startCalls :: acts ++ [.announced .finished finishCalls], ending⟩,
    { holder with bus })

/-- Lets go of all trackers, and makes each of them forget what it recorded. -/
def cleanAll (tracking : Tracking σ) (holder : Holder σ) : Holder σ :=
  let discarded := holder.registry.trackers
  discarded.foldl (fun holder handle => holder.update handle tracking.dispose)
    { holder with registry := .empty }

end Holder

namespace Tracking

variable {σ : Type}

/-- A scan that uses nothing but its own tracker. -/
def rescanAlone (scan : σ → Outcome × σ) (handle : Handle) (holder : Holder σ) :
    Outcome × Holder σ :=
  match holder.tracker? handle with
  | some tracker =>
    let (outcome, tracker) := scan tracker
    (outcome, holder.update handle fun _ => tracker)
  | none => (.done, holder)

end Tracking

end IgnoreAtlas
