import IgnoreAtlas.Proofs.Tracker.Sweep
import IgnoreAtlas.Proofs.Workspace.Ownership
import Mathlib.Data.Finset.Card

/-!
# Records that hold nothing twice

A record is *flat* when no recorded path is at or below another one: then a directory is recorded as
itself only, and no two entries cover the same path (`flat_iff_countP_le_one`). A scan leaves a flat
record, whatever was recorded before: its walk comes to each entry behind those above it, and an entry
inside a recorded one is not recorded again (`Scan.Job.flat_recorded`).

Adding a file does not look for recorded paths around the file or inside it. So a record stays flat
exactly as long as no added path is properly below or above a recorded one, and a record that is not
flat stays so until a scan or an emptying replaces it (`flat_after_iff`).

Nothing here asks for an absolute root.
-/

namespace IgnoreAtlas

/-! ## Sets of paths -/

namespace PathSet

variable {set : PathSet} {p : Path}

/-- No path of the set is at or below another one. -/
def Flat (set : PathSet) : Prop := ∀ p ∈ set.paths, ∀ q ∈ set.paths, q.startsWith p → p = q

/-- A path of the set is properly above this one, or properly below it. -/
def Crosses (set : PathSet) (p : Path) : Prop :=
  ∃ q ∈ set.paths, ¬q.same p ∧ (q.startsWith p ∨ p.startsWith q)

theorem flat_empty : empty.Flat := by
  intro p hp
  cases hp

/-- In a flat set what is at or around a path of it is that path. -/
theorem Flat.not_crosses (h : set.Flat) (hp : set.contains p.components) : ¬set.Crosses p := by
  obtain ⟨twin, htwin, hsame⟩ := List.mem_map.mp (contains_iff.mp hp)
  rintro ⟨q, hq, hother, hbelow⟩
  apply hother
  simp only [Path.startsWith_iff, ← hsame] at hbelow
  rw [Path.same_iff, ← hsame]
  rcases hbelow with hbelow | habove
  · rw [h twin htwin q hq (Path.startsWith_iff.mpr hbelow)]
  · rw [h q hq twin htwin (Path.startsWith_iff.mpr habove)]

/-- One more path leaves a set flat exactly when the set was flat and nothing in it is properly above
or below the path. -/
theorem flat_insert_iff : (set.insert p).Flat ↔ set.Flat ∧ ¬set.Crosses p := by
  by_cases hthere : set.contains p.components
  · rw [insert_of_contains hthere]
    exact (and_iff_left_of_imp fun hflat => hflat.not_crosses hthere).symm
  · have hnew : ∀ q ∈ set.paths, ¬q.same p := by
      intro q hq hsame
      apply hthere
      rw [contains_iff, ← Path.same_iff.mp hsame]
      exact List.mem_map_of_mem hq
    have hmem {q : Path} : q ∈ (set.insert p).paths ↔ q ∈ set.paths ∨ q = p := by
      rw [paths_insert_of_not_contains hthere, List.mem_append, List.mem_singleton]
    constructor
    · intro hflat
      refine ⟨fun a ha b hb => hflat a (hmem.mpr (.inl ha)) b (hmem.mpr (.inl hb)), ?_⟩
      rintro ⟨q, hq, hother, hbelow | habove⟩
      · have hsame := hflat p (hmem.mpr (.inr rfl)) q (hmem.mpr (.inl hq)) hbelow
        exact hnew q hq (Path.same_iff.mpr (congrArg _ hsame.symm))
      · have hsame := hflat q (hmem.mpr (.inl hq)) p (hmem.mpr (.inr rfl)) habove
        exact hnew q hq (Path.same_iff.mpr (congrArg _ hsame))
    · rintro ⟨hflat, hapart⟩ a ha b hb hbelow
      rcases hmem.mp ha with haold | hanew
      · rcases hmem.mp hb with hbold | hbnew
        · exact hflat a haold b hbold hbelow
        · rw [hbnew] at hbelow
          exact absurd ⟨a, haold, hnew a haold, .inr hbelow⟩ hapart
      · rcases hmem.mp hb with hbold | hbnew
        · rw [hanew] at hbelow
          exact absurd ⟨b, hbold, hnew b hbold, .inl hbelow⟩ hapart
        · rw [hanew, hbnew]

/-- A set is flat exactly when no path is at or below two of its paths. -/
theorem flat_iff_countP_le_one :
    set.Flat ↔ ∀ file : Path, set.paths.countP (file.startsWith ·) ≤ 1 := by
  have hcard (file : Path) : set.paths.countP (file.startsWith ·) ≤ 1 ↔
      ∀ a ∈ set.paths, file.startsWith a → ∀ b ∈ set.paths, file.startsWith b → a = b := by
    have hnodup : (set.paths.filter (file.startsWith ·)).Nodup :=
      (List.Nodup.of_map _ set.distinct).filter _
    rw [List.countP_eq_length_filter, ← List.toFinset_card_of_nodup hnodup, Finset.card_le_one]
    simp only [List.mem_toFinset, List.mem_filter, and_imp]
  simp only [hcard]
  constructor
  · intro hflat file a ha hab b hb hbb
    rcases List.prefix_or_prefix_of_prefix (Path.startsWith_iff.mp hab)
      (Path.startsWith_iff.mp hbb) with hprefix | hprefix
    · exact hflat a ha b hb (Path.startsWith_iff.mpr hprefix)
    · exact (hflat b hb a ha (Path.startsWith_iff.mpr hprefix)).symm
  · intro hone p hp q hq hbelow
    exact hone q p hp hbelow q hq (Path.startsWith_self q)

end PathSet

/-! ## Scans -/

namespace Scan.Job

variable {job : Job} {names : List Name}

/-- The root of a job has bytes: an empty path leads nowhere. -/
theorem bytes_root_ne_nil (job : Job) : job.root.bytes ≠ [] := by
  intro hnil
  have hresolved := job.resolved
  rw [FileSystem.resolve, FileSystem.locate, if_pos hnil] at hresolved
  cases hresolved

theorem path_startsWith_iff {part : List Name} :
    (job.path names).startsWith (job.path part) ↔ part <+: names := by
  rw [Path.startsWith_iff]
  exact Path.prefix_descend_iff_of_ne_nil job.bytes_root_ne_nil

/-- The set is flat, and holds paths of these entries only, none of them visible. -/
structure FlatAmong (job : Job) (visible : PathSet) (before : List (List Name)) (set : PathSet) :
    Prop where
  flat : set.Flat
  among : ∀ p ∈ set.paths, ∃ names ∈ before, p = job.path names
  hidden : ∀ p ∈ set.paths, visible.contains p.components = false

/-- One more entry is noted that is not above an earlier one. It is recorded only when it is inside no
recorded one. -/
theorem FlatAmong.note {visible set : PathSet} {before : List (List Name)}
    (h : job.FlatAmong visible before set) (hbehind : ∀ part ∈ before, ¬names <+: part) :
    job.FlatAmong visible (before ++ [names]) (job.note visible set (job.path names)) := by
  have hwider : ∀ p ∈ set.paths, ∃ others ∈ before ++ [names], p = job.path others := by
    intro p hp
    obtain ⟨others, hothers, hpath⟩ := h.among p hp
    exact ⟨others, List.mem_append_left _ hothers, hpath⟩
  unfold Job.note
  split
  · exact ⟨h.flat, hwider, h.hidden⟩
  · next hnote =>
    rw [Bool.or_eq_true, not_or] at hnote
    have habsolute : (job.path names).isAbsolute → job.root.isAbsolute := by
      rw [path, Path.isAbsolute_descend_eq job.bytes_root_ne_nil]
      exact id
    have hapart : ¬set.Crosses (job.path names) := by
      rintro ⟨q, hq, hother, hbelow | habove⟩
      · obtain ⟨part, hpart, rfl⟩ := h.among q hq
        exact hbehind part hpart (path_startsWith_iff.mp hbelow)
      · obtain ⟨part, hpart, rfl⟩ := h.among q hq
        apply hnote.2
        rw [PathSet.holdsBelow_drop_ancestors habsolute]
        refine ⟨(job.path part).components, ?_, Path.startsWith_iff.mp habove, ?_,
          PathSet.contains_iff.mpr (List.mem_map_of_mem hq)⟩
        · exact Path.startsWith_iff.mp (path_startsWith_iff.mpr List.nil_prefix)
        · intro hsame
          exact hother (Path.same_iff.mpr hsame)
    refine ⟨PathSet.flat_insert_iff.mpr ⟨h.flat, hapart⟩, ?_, ?_⟩
    · intro p hp
      rcases PathSet.mem_paths_insert hp with hold | rfl
      · exact hwider p hold
      · exact ⟨names, List.mem_append_right _ List.mem_cons_self, rfl⟩
    · intro p hp
      rcases PathSet.mem_paths_insert hp with hold | rfl
      · exact h.hidden p hold
      · exact Bool.eq_false_iff.mpr hnote.1

/-- Entries are noted one after the other, none behind one that is inside it. -/
theorem flatAmong_foldl {visible : PathSet} {list : List (List Name)} :
    (list.Pairwise fun a b => ¬b <+: a) →
      job.FlatAmong visible list ((list.map job.path).foldl (job.note visible) .empty) := by
  induction list using List.reverseRecOn with
  | nil =>
    intro _
    exact ⟨PathSet.flat_empty, nofun, nofun⟩
  | append_singleton front last ih =>
    intro hpairwise
    obtain ⟨hfront, -, hlast⟩ := List.pairwise_append.mp hpairwise
    rw [List.map_append, List.map_singleton, List.foldl_concat]
    exact (ih hfront).note fun part hpart => hlast part hpart last List.mem_cons_self

/-- What a scan records is flat. -/
theorem flat_recorded (job : Job) : job.recorded.Flat := by
  have hignored : job.FlatAmong job.visible (job.heeding false).reached (job.ignored job.visible) :=
    flatAmong_foldl reached_pairwise
  unfold recorded withGitDir
  dsimp only
  split
  · refine PathSet.flat_insert_iff.mpr ⟨hignored.flat, ?_⟩
    have hgit : job.root.child .git = job.path [.git] := rfl
    rw [hgit]
    rintro ⟨q, hq, hother, hbelow⟩
    obtain ⟨names, hnames, rfl⟩ := hignored.among q hq
    simp only [path_startsWith_iff] at hbelow
    rcases mem_reached_heeding_false.mp hnames with rfl | hscanned
    · exact Bool.eq_false_iff.mp (hignored.hidden _ hq) job.contains_visible_root
    · have hfirst : ∃ rest, names = .git :: rest := by
        rcases hbelow with habove | hbelow
        · obtain ⟨rest, rfl⟩ := habove
          exact ⟨rest, rfl⟩
        · obtain ⟨rest, rfl, -⟩ := (List.prefix_cons_iff.mp hbelow).resolve_left hscanned.below
          exact ⟨rest, rfl⟩
      obtain ⟨rest, rfl⟩ := hfirst
      exact hscanned.unnamed List.mem_cons_self
  · exact hignored.flat

end Scan.Job

/-! ## Runs -/

namespace Tracker

variable {tracker : Tracker} {place : Place} {file : Path}

/-- What can be asked of a tracker and changes what it records. -/
inductive Request
  | rescan
  | add (file : Path)
  | dispose

/-- One request. -/
def perform (tracker : Tracker) (place : Place) : Request → Tracker
  | .rescan => (tracker.rescan place).2
  | .add file => tracker.addFile file
  | .dispose => tracker.dispose

/-- Requests, one after the other. Files can change between any two of them. -/
def after (tracker : Tracker) (run : List (Place × Request)) : Tracker :=
  run.foldl (fun tracker step => tracker.perform step.1 step.2) tracker

/-- The file is taken, and something recorded is properly above it or below it. -/
def Crosses (tracker : Tracker) (file : Path) : Prop :=
  (tracker.absolute file).startsWith tracker.root ∧ ¬(tracker.absolute file).same tracker.root ∧
    tracker.recorded.Crosses (tracker.absolute file)

/-- The request replaces the record: it empties it, or is a scan that finds the root. -/
def Renews (root : Path) : Place × Request → Prop
  | (place, .rescan) => place.isDir root
  | (_, .add _) => False
  | (_, .dispose) => True

/-- No request changes the root. -/
theorem root_perform (tracker : Tracker) (place : Place) (request : Request) :
    (tracker.perform place request).root = tracker.root := by
  cases request with
  | rescan =>
    unfold perform rescan
    dsimp only
    split <;> rfl
  | add file =>
    unfold perform addFile
    dsimp only
    split <;> rfl
  | dispose => rfl

theorem root_after (tracker : Tracker) (run : List (Place × Request)) :
    (tracker.after run).root = tracker.root := by
  induction run generalizing tracker with
  | nil => rfl
  | cons step run ih => exact (ih _).trans (root_perform tracker step.1 step.2)

theorem after_concat (tracker : Tracker) (run : List (Place × Request)) (place : Place)
    (request : Request) :
    tracker.after (run ++ [(place, request)]) = (tracker.after run).perform place request :=
  List.foldl_concat _ _ _ _

/-- A request that replaces the record leaves a flat one. -/
theorem flat_perform_of_renews {request : Request} (h : Renews tracker.root (place, request)) :
    (tracker.perform place request).recorded.Flat := by
  cases request with
  | rescan =>
    obtain ⟨recorded, hrecord⟩ := Scan.record_of_isDir tracker.settings h
    obtain ⟨job, -, rfl⟩ := Scan.exists_job_of_record hrecord
    rw [perform, rescan, hrecord]
    exact job.flat_recorded
  | add file => exact absurd h id
  | dispose => exact PathSet.flat_empty

/-- A scan that does not find the root leaves the record. -/
theorem recorded_perform_rescan (h : ¬place.isDir tracker.root) :
    (tracker.perform place .rescan).recorded = tracker.recorded := by
  rw [perform, rescan, Scan.record_of_not_isDir h]

/-- Adding a file leaves a flat record exactly when the record was flat and the file crosses nothing. -/
theorem flat_addFile_iff :
    (tracker.addFile file).recorded.Flat ↔ tracker.recorded.Flat ∧ ¬tracker.Crosses file := by
  unfold addFile
  dsimp only
  split
  · next htaken =>
    rw [Bool.and_eq_true, Bool.not_eq_true', ← Bool.not_eq_true] at htaken
    rw [PathSet.flat_insert_iff, Crosses, ← and_assoc]
    simp only [and_iff_right htaken]
  · next hrefused =>
    refine (and_iff_left ?_).symm
    rintro ⟨hbelow, hother, -⟩
    apply hrefused
    rw [Bool.and_eq_true, Bool.not_eq_true', ← Bool.not_eq_true]
    exact ⟨hbelow, hother⟩

/-- No file that was added since the record was last replaced crossed anything when it was added. -/
def Uncrossed (tracker : Tracker) (run : List (Place × Request)) : Prop :=
  ∀ front place file back, run = front ++ (place, .add file) :: back →
    (∀ step ∈ back, ¬Renews tracker.root step) → ¬(tracker.after front).Crosses file

theorem uncrossed_nil (tracker : Tracker) : tracker.Uncrossed [] := by
  intro front place file back hrun
  simp at hrun

/-- What was added before the record is replaced does not matter any more. -/
theorem uncrossed_concat_of_renews {run : List (Place × Request)} {step : Place × Request}
    (h : Renews tracker.root step) : tracker.Uncrossed (run ++ [step]) := by
  intro front place file back hrun hkeeps
  rcases List.eq_nil_or_concat' back with rfl | ⟨kept, last, rfl⟩
  · obtain ⟨-, hstep⟩ := List.append_inj' hrun rfl
    rw [List.singleton_inj] at hstep
    rw [hstep] at h
    exact absurd h id
  · rw [← List.cons_append, ← List.append_assoc] at hrun
    obtain ⟨-, hlast⟩ := List.append_inj' hrun rfl
    rw [List.singleton_inj] at hlast
    exact absurd h (hkeeps step (hlast ▸ List.mem_append_right _ List.mem_cons_self))

/-- While the record is not replaced, each added file counts. -/
theorem uncrossed_concat_iff {run : List (Place × Request)} {step : Place × Request}
    (h : ¬Renews tracker.root step) :
    tracker.Uncrossed (run ++ [step]) ↔
      tracker.Uncrossed run ∧ ∀ file, step.2 = .add file → ¬(tracker.after run).Crosses file := by
  constructor
  · intro hall
    constructor
    · intro front place file back hrun hkeeps
      apply hall front place file (back ++ [step])
      · rw [hrun, List.append_assoc, List.cons_append]
      · intro other hother
        rcases List.mem_append.mp hother with hback | hlast
        · exact hkeeps other hback
        · rw [List.mem_singleton.mp hlast]
          exact h
    · intro file hadd
      apply hall run step.1 file []
      · rw [← hadd]
      · nofun
  · rintro ⟨hrun, hlast⟩ front place file back hsplit hkeeps
    rcases List.eq_nil_or_concat' back with rfl | ⟨kept, last, rfl⟩
    · obtain ⟨rfl, hstep⟩ := List.append_inj' hsplit rfl
      rw [List.singleton_inj] at hstep
      apply hlast
      rw [hstep]
    · rw [← List.cons_append, ← List.append_assoc] at hsplit
      obtain ⟨hfront, -⟩ := List.append_inj' hsplit rfl
      apply hrun front place file kept hfront
      intro other hother
      exact hkeeps other (List.mem_append_left _ hother)

/-- A tracker that records nothing at first has a flat record as long as nothing crosses. -/
theorem flat_after_iff_uncrossed (hempty : tracker.recorded = .empty)
    (run : List (Place × Request)) :
    (tracker.after run).recorded.Flat ↔ tracker.Uncrossed run := by
  induction run using List.reverseRecOn with
  | nil =>
    refine iff_of_true ?_ (uncrossed_nil tracker)
    exact hempty ▸ PathSet.flat_empty
  | append_singleton run step ih =>
    obtain ⟨place, request⟩ := step
    have hroot := root_after tracker run
    rw [after_concat]
    by_cases hrenews : Renews tracker.root (place, request)
    · refine iff_of_true ?_ (uncrossed_concat_of_renews hrenews)
      exact flat_perform_of_renews (hroot ▸ hrenews)
    · rw [uncrossed_concat_iff hrenews, ← ih]
      cases request with
      | rescan =>
        rw [recorded_perform_rescan (hroot ▸ hrenews)]
        exact (and_iff_left (by nofun)).symm
      | add file =>
        rw [perform, flat_addFile_iff]
        refine and_congr_right fun _ => ⟨?_, fun h => h file rfl⟩
        rintro h other heq
        cases heq
        exact h
      | dispose => exact absurd trivial hrenews

/-- The entries that a tracker lists are its recorded paths, each once. -/
theorem countP_ignoredEntries (tracker : Tracker) (place : Place) (file : Path) :
    (tracker.ignoredEntries place).countP (fun e => file.startsWith e.path) =
      tracker.recorded.paths.countP (file.startsWith ·) := by
  rw [ignoredEntries, IgnoredEntry.sort, (List.mergeSort_perm _ _).countP_eq, List.countP_map]
  rfl

/-- **Recorded as itself only.** After any run of a tracker that was opened, whatever files changed in
between, its record is flat, and no path is covered by two of the entries that it lists, exactly when
no file that was added since the last scan of an existing root, or since the record was last emptied,
is properly below or above what was recorded then. -/
theorem flat_after_iff {start : Place} {settings : TrackerSettings} {root : Path}
    (hopen : Tracker.open? start settings root = .ok tracker) (run : List (Place × Request)) :
    let now := tracker.after run
    (now.recorded.Flat ↔
      ∀ front place file back, run = front ++ (place, .add file) :: back →
        (∀ step ∈ back, ¬Renews root step) → ¬(tracker.after front).Crosses file) ∧
      (now.recorded.Flat ↔ ∀ (place : Place) (file : Path),
        (now.ignoredEntries place).countP (fun e => file.startsWith e.path) ≤ 1) := by
  intro now
  obtain rfl := open?_eq_ok hopen
  constructor
  · exact flat_after_iff_uncrossed rfl run
  · simp only [countP_ignoredEntries]
    rw [PathSet.flat_iff_countP_le_one]
    exact ⟨fun hone _ => hone, fun hone => hone start⟩

/-! ## A file in an ignored directory -/

/-- A repository `/fell` that ignores its directory `bog`, and a file in that directory. -/
def fellPlace : Place where
  files :=
    { top := .dir (.spell "fell")
        (.dir .git Workspace.gitListing <| .file .gitignore (.literal (Utf8.encode "bog")) <|
          .dir (.spell "bog") (.file (.spell "sedge") (.literal []) .empty) .empty) .empty
      distinct := by decide +kernel }
  cwd := []
  home := .ofString "/home"

/-- A scan, and then the file is added. -/
def fellRun : List (Place × Request) :=
  [(fellPlace, .rescan), (fellPlace, .add (.ofString "/fell/bog/sedge"))]

theorem open?_fellPlace :
    open? fellPlace {} (.ofString "/fell") = .ok ⟨.ofString "/fell", {}, .empty, false⟩ := by
  have hkind : Repository.open? fellPlace (.ofString "/fell") = some .worktree := by decide +kernel
  rw [open?, hkind]

/-- A second scan makes up for the addition. -/
theorem flat_after_iff_fellPlace :
    ∃ tracker, open? fellPlace {} (.ofString "/fell") = .ok tracker ∧
      (tracker.after (fellRun ++ [(fellPlace, .rescan)])).recorded.Flat := by
  have hrenews : Renews (.ofString "/fell") (fellPlace, .rescan) := by
    show fellPlace.isDir (.ofString "/fell")
    decide +kernel
  have huncrossed : (Tracker.mk (.ofString "/fell") {} .empty false).Uncrossed
      (fellRun ++ [(fellPlace, .rescan)]) :=
    uncrossed_concat_of_renews hrenews
  refine ⟨_, open?_fellPlace, ?_⟩
  exact (flat_after_iff open?_fellPlace _).1.mpr huncrossed

/-- Before that the file is covered twice: it is recorded, and so is the directory. -/
theorem covered_twice_in_fellPlace :
    ∃ tracker, open? fellPlace {} (.ofString "/fell") = .ok tracker ∧
      let now := tracker.after fellRun
      .ofString "/fell/bog" ∈ now.recorded.paths ∧
        .ofString "/fell/bog/sedge" ∈ now.recorded.paths ∧ ¬now.recorded.Flat ∧
        (now.ignoredEntries fellPlace).countP
          (fun e => (Path.ofString "/fell/bog/sedge").startsWith e.path) = 2 := by
  refine ⟨_, open?_fellPlace, ?_⟩
  intro now
  have hdir : Path.ofString "/fell/bog" ∈ now.recorded.paths := by decide +kernel
  have hfile : Path.ofString "/fell/bog/sedge" ∈ now.recorded.paths := by decide +kernel
  refine ⟨hdir, hfile, ?_, ?_⟩
  · intro hflat
    have hsame := hflat _ hdir _ hfile (by decide +kernel)
    exact absurd hsame (by decide +kernel)
  · rw [countP_ignoredEntries]
    decide +kernel

end Tracker

end IgnoreAtlas
