import IgnoreAtlas.Proofs.Tracker.Sweep
import IgnoreAtlas.Proofs.Workspace.Answers

/-!
# Scans and checks

A scan lists entries by the paths that it walks, and never follows a link; a check spells a file
normally first, and so follows every link. The two agree on an entry when its repository owns the
normal spelling of its path and has an entry at or above that one. Every entry is spelled normally by
its own path, but for a link that leads somewhere, and so for all but these only one thing can come in
between: an entry `.git` that is the root of a repository itself (`agrees_after_rescan`).
-/

namespace IgnoreAtlas

/-! ## What a scan of a root records -/

namespace Scan

variable {place : Place} {location : Location}

/-- A directory that opens as a repository can be scanned where it is. -/
theorem exists_job_of_isRoot (settings : TrackerSettings) {inside : Listing}
    (hinside : place.files.listing? location = some inside)
    (hroot : Discovery.isRoot place (.ofLocation location)) :
    ∃ job, Job.of? place settings (.ofLocation location) = some job ∧ job.location = location := by
  have hgit := (Bool.and_eq_true_iff.mp hroot).1
  rw [Path.child_ofLocation, Place.exists?_iff] at hgit
  obtain ⟨found, hfound⟩ := hgit
  -- A path that leads on to `.git` leads somewhere, and that of a directory to itself then.
  obtain ⟨above, habove, -⟩ := FileSystem.exists_resolve_of_append hfound
  obtain rfl := FileSystem.eq_of_resolve_ofLocation (FileSystem.real_of_listing? hinside) habove
  obtain ⟨job, hjob⟩ : ∃ job, Job.of? place settings (.ofLocation above) = some job :=
    exists_job_iff.mpr (Place.isDir_iff.mpr ⟨above, inside, habove, hinside⟩)
  obtain ⟨hplace, -, hsame⟩ := Job.of?_eq_some hjob
  have hresolved := job.resolved
  rw [hplace, hsame, habove, Except.ok.injEq] at hresolved
  exact ⟨job, hjob, hresolved.symm⟩

namespace Job

variable {job : Job} {names : List Name} {p : Path}

theorem exists_path_of_mem_recorded (hp : p ∈ job.recorded.paths) :
    ∃ names, p = job.path names := by
  -- The walk and the entry `.git` insert such paths, and nothing else does.
  have hinsert {set : PathSet} (names : List Name)
      (hset : ∀ q ∈ set.paths, ∃ names, q = job.path names) :
      ∀ q ∈ (set.insert (job.path names)).paths, ∃ names, q = job.path names := fun q hq =>
    (PathSet.mem_paths_insert hq).elim (hset q) fun heq => ⟨names, heq⟩
  have hignored : ∀ q ∈ (job.ignored job.visible).paths, ∃ names, q = job.path names := by
    unfold ignored
    refine List.foldlRecOn
      (motive := fun set : PathSet => ∀ q ∈ set.paths, ∃ names, q = job.path names)
      _ _ (fun q hq => absurd hq List.not_mem_nil) fun set hset walked hwalked => ?_
    obtain ⟨names, -, rfl⟩ := List.mem_map.mp hwalked
    unfold note
    split
    · exact hset
    · exact hinsert names hset
  unfold recorded withGitDir at hp
  dsimp only at hp
  split at hp
  · exact hinsert [.git] hignored p hp
  · exact hignored p hp

/-- Everything recorded is the path of an entry that a scan is said to record. -/
theorem exists_records_of_mem_recorded (hroot : job.root.isAbsolute)
    (hp : p ∈ job.recorded.paths) : ∃ names, job.Records names ∧ p = job.path names := by
  obtain ⟨names, rfl⟩ := exists_path_of_mem_recorded hp
  obtain ⟨others, hrecords, hc⟩ :=
    (contains_recorded hroot).mp (PathSet.contains_iff.mpr (List.mem_map_of_mem hp))
  rw [(Path.components_descend_inj hroot).mp hc]
  exact ⟨others, hrecords, rfl⟩

/-- The root is the deepest around what is recorded, unless that is a root itself. -/
theorem deepest_path_iff {set : RepositorySet}
    (hspelled : ∀ r ∈ set.roots, ∃ names, r = .ofLocation names) (hmarked : set.Marked job.place)
    (hmem : job.root ∈ set.roots) (h : job.Records names) :
    set.Deepest job.root (job.path names) ↔ job.path names ∉ set.roots := by
  obtain ⟨top, htop⟩ := hspelled _ hmem
  have hroot : job.root.isAbsolute := htop ▸ Path.isAbsolute_ofLocation top
  have hbelow : ¬(job.path names).same job.root := fun hsame =>
    h.ne_nil ((Path.components_descend_inj hroot).mp (Path.same_iff.mp hsame))
  rw [← owns_path_iff hspelled hmarked hmem h]
  exact ⟨fun ⟨_, haround, hdeepest⟩ => ⟨haround, hbelow, hdeepest⟩,
    fun howns => ⟨hmem, howns.around, howns.deepest⟩⟩

theorem Records.exists_entry (h : job.Records names) (hroot : job.root = .ofLocation job.location) :
    ∃ e, job.place.files.entry? (job.location ++ names) = some e := by
  rw [FileSystem.entry?_append job.listed]
  rcases h with htop | ⟨rfl, -, hgit⟩
  · exact Option.isSome_iff_exists.mp htop.scanned.present
  · rw [hroot, Path.child_ofLocation, Place.exists?_iff] at hgit
    obtain ⟨found, hfound⟩ := hgit
    rw [Listing.entry?_singleton]
    exact FileSystem.exists_find?_of_resolve job.listed hfound

end Job

end Scan

namespace Discovery

variable {place : Place} {settings : DiscoverySettings} {starts : List Path}

/-- Roots that are found without following links can be scanned where they are. -/
theorem exists_job_of_mem_roots (hlinks : settings.followLinks = false) {root : Path}
    (h : root ∈ (discover place settings starts).roots) (tracker : TrackerSettings) :
    ∃ job, Scan.Job.of? place tracker root = some job ∧ root = .ofLocation job.location := by
  obtain ⟨location, inside, rfl, hinside⟩ := exists_listing?_of_mem_roots hlinks h
  obtain ⟨job, hjob, rfl⟩ := Scan.exists_job_of_isRoot tracker hinside
    (mem_roots_discover_iff.mp h).1
  exact ⟨job, hjob, rfl⟩

end Discovery

namespace Workspace

variable {set : RepositorySet} {settings : TrackerSettings} {workspace : Workspace} {place : Place}

theorem Fits.exists_of_mem_valuesFor (h : workspace.Fits set settings) {r : Repository}
    (hr : r ∈ set.repositories) {entry : IgnoredEntry}
    (hentry : entry ∈ workspace.holder.valuesFor (Tracker.tracking place) r) :
    ∃ e ∈ workspace.holder.registry.entries, e.1 = r ∧
      ∃ t, workspace.holder.tracker? e.2 = some t ∧ entry.path ∈ t.recorded.paths := by
  rcases h.registered with hall | hnone
  · rw [← hall] at hr
    obtain ⟨e, he, rfl⟩ := List.mem_map.mp hr
    obtain ⟨t, ht, -⟩ := h.serves e he
    rw [valuesFor_eq he ht, Tracker.mem_ignoredEntries] at hentry
    obtain ⟨p, hp, rfl⟩ := hentry
    exact ⟨e, he, rfl, t, ht, hp⟩
  · rw [Holder.valuesFor, hnone] at hentry
    exact absurd hentry List.not_mem_nil

/-- After a round of scans the list of a repository is what a scan of its root has recorded. -/
theorem exists_job_of_rescan {opened : Settings} {starts : List Path}
    (hfits : workspace.Fits (Discovery.discover place opened.discovery starts) opened.tracker)
    (hlinks : opened.discovery.followLinks = false) (react : Update.Reactions) {r : Repository}
    (hr : r ∈ (Discovery.discover place opened.discovery starts).repositories) :
    let now := workspace.perform place (.rescan react)
    ∃ job : Scan.Job, job.place = place ∧ job.root = r.root ∧ job.root = .ofLocation job.location ∧
      ∀ entry ∈ now.holder.valuesFor (Tracker.tracking place) r,
        r ∈ now.holder.repositories ∧ ∃ names, job.Records names ∧ entry.path = job.path names := by
  intro now
  obtain ⟨job, hjob, hlocation⟩ :=
    Discovery.exists_job_of_mem_roots hlinks (List.mem_map_of_mem hr) opened.tracker
  obtain ⟨hplace, -, hroot⟩ := Scan.Job.of?_eq_some hjob
  rw [← hroot] at hlocation
  refine ⟨job, hplace, hroot, hlocation, ?_⟩
  intro entry hentry
  obtain ⟨e, he, rfl, t, ht, hp⟩ :=
    (hfits.perform place (.rescan react)).exists_of_mem_valuesFor hr hentry
  obtain ⟨t', ht', hrecorded⟩ := each_recorded_rescan hfits place react e he
  obtain rfl : t = t' := Option.some.inj (ht.symm.trans ht')
  rw [hrecorded job hjob] at hp
  obtain ⟨names, hnames, hpath⟩ := Scan.Job.exists_records_of_mem_recorded
    (hlocation ▸ Path.isAbsolute_ofLocation _) hp
  exact ⟨List.mem_map_of_mem he, names, hnames, hpath⟩

/-! ## Agreement -/

/-- A check of the path says that it is ignored, and of that repository. -/
def Agrees (workspace : Workspace) (place : Place) (r : Repository) (p : Path) : Prop :=
  workspace.checkFiles place [p] = [⟨place.normalize p, true, some r.root⟩]

/-- Where the normal spelling of a path stays, a check agrees when the repository is that of the deepest
root around it and has an entry at or above it. -/
theorem Fits.agrees_iff (h : workspace.Fits set settings)
    (hspelled : ∀ r ∈ set.roots, ∃ names, r = .ofLocation names)
    (hcontained : workspace.holder.Each fun _ t => t.Contained) {r : Repository} {p : Path}
    (hr : r ∈ workspace.holder.repositories)
    (hstays : place.normalize (place.normalize p) = place.normalize p) :
    workspace.Agrees place r p ↔
      workspace.repositories.Deepest r.root (place.normalize p) ∧
        ∃ entry ∈ workspace.holder.valuesFor (Tracker.tracking place) r,
          (place.normalize p).startsWith entry.path := by
  have hanswers := h.answers_resultFor hspelled hcontained place p
  rw [hstays, hstays] at hanswers
  rw [← hanswers.ignored_and_repository_iff hr, Agrees, checkFiles_eq, List.map_singleton,
    List.singleton_inj]
  simp [resultFor]

/-- **Scans and checks.** In a workspace that was opened without following links, and after any run, a
round of scans is done. Then a check of an entry agrees with the list that the entry is in exactly when
the repository is that of the deepest root around the normal spelling of its path and has an entry at or
above that. This spelling is the path itself unless the entry is a link that leads somewhere. For all
other entries a check agrees unless the entry is a root, which only the entry `.git` can be. -/
theorem agrees_after_rescan {opened : Settings} {starts : List Path}
    (hopen : openAt place opened starts = .ok workspace)
    (hlinks : opened.discovery.followLinks = false) (run : List (Place × Request))
    (react : Update.Reactions) :
    let now := (workspace.after run).perform place (.rescan react)
    ∀ r ∈ now.repositories.repositories,
      ∀ entry ∈ now.holder.valuesFor (Tracker.tracking place) r,
        let spelled := place.normalize entry.path
        (now.Agrees place r entry.path ↔
          now.repositories.Deepest r.root spelled ∧
            ∃ other ∈ now.holder.valuesFor (Tracker.tracking place) r,
              spelled.startsWith other.path) ∧
          (spelled = entry.path ↔ ¬place.LeadsOn entry.path) ∧
          (¬place.LeadsOn entry.path →
            (now.Agrees place r entry.path ↔ entry.path ∉ now.repositories.roots)) ∧
          (entry.path ∈ now.repositories.roots → entry.path = r.root.child .git) := by
  intro now r hr entry hentry spelled
  have hbefore := (fits_of_openAt hopen).after run
  have hnow : now.Fits _ _ := hbefore.perform place (.rescan react)
  have hcontained : now.holder.Each fun _ t => t.Contained := by
    have hafter := each_contained_of_openAt hopen (run ++ [(place, .rescan react)])
    rwa [after_append] at hafter
  have hspelled : ∀ r ∈ (Discovery.discover place opened.discovery starts).roots,
      ∃ names, r = .ofLocation names := fun _ => Discovery.exists_path_of_mem_roots
  rw [hnow.repositories] at hr ⊢
  obtain ⟨job, rfl, hroot, hlocation, hlisted⟩ := exists_job_of_rescan hbefore hlinks react hr
  obtain ⟨hthere, names, hnames, hpath⟩ := hlisted entry hentry
  -- The root is where it says, so the path of the entry is that of a location with an entry.
  have hwhere : entry.path = .ofLocation (job.location ++ names) := by
    rw [hpath, Scan.Job.path, hlocation, Path.descend_ofLocation]
  obtain ⟨e, he⟩ := hnames.exists_entry hlocation
  have hnormal := Place.normalize_entry he
  rw [← hwhere] at hnormal
  have hagrees := hnow.agrees_iff hspelled hcontained hthere hnormal.2
  have hmem : job.root ∈ (Discovery.discover job.place opened.discovery starts).roots :=
    hroot ▸ List.mem_map_of_mem hr
  rw [hnow.repositories] at hagrees
  refine ⟨hagrees, hnormal.1, fun hstays => ?_, fun hself => ?_⟩
  · -- The spelling is the path itself, and the entry is at its own path.
    rw [hagrees, hnormal.1.mpr hstays, hpath, ← hroot,
      Scan.Job.deepest_path_iff hspelled Discovery.marked_discover hmem hnames, ← hpath]
    exact and_iff_left ⟨entry, hentry, Path.startsWith_iff.mpr List.prefix_rfl⟩
  · -- Every root has an entry `.git`, and a scan records no other entry with one.
    rw [hpath] at hself ⊢
    obtain ⟨-, rfl⟩ := Scan.Job.eq_git_of_records Discovery.marked_discover hnames hnames.ne_nil
      List.prefix_rfl hself
    rw [← hroot]
    rfl

/-- A repository `/depot` with a file `kept` and a link `alias` to it, which is ignored. -/
def linkedPlace : Place where
  files :=
    { top := .dir (.spell "depot")
        (.dir .git gitListing <| .file (.spell "kept") (.literal []) <|
          .link (.spell "alias") (.ofString "kept") <|
            .file .gitignore (.literal (Utf8.encode "alias")) .empty) .empty
      distinct := by decide +kernel }
  cwd := []
  home := .ofString "/home"

/-- Settings as they are when nothing is set. -/
def linkedSettings : Settings := { workspacePaths := [] }

def linkedRepository : Repository := .ofRoot (.ofString "/depot")

theorem discover_linkedPlace :
    Discovery.discover linkedPlace linkedSettings.discovery [.ofString "/depot"] =
      ⟨[linkedRepository], List.pairwise_singleton _ _⟩ :=
  Discovery.discover_eq (by decide +kernel)

/-- After a scan the link and the entry `.git` are listed, and a check of the link is about the file. -/
theorem listed_in_linkedPlace :
    ∃ workspace, openAt linkedPlace linkedSettings [.ofString "/depot"] = .ok workspace ∧
      let now := workspace.perform linkedPlace (.rescan fun _ _ => {})
      let entries := now.holder.valuesFor (Tracker.tracking linkedPlace) linkedRepository
      (∃ entry ∈ entries, entry.path = .ofString "/depot/.git") ∧
        (∃ entry ∈ entries, entry.path = .ofString "/depot/alias") ∧
        now.checkFiles linkedPlace [.ofString "/depot/alias"] =
          [⟨.ofString "/depot/kept", false, some linkedRepository.root⟩] := by
  have hscan : (ofRepositories linkedPlace linkedSettings.tracker
      ⟨[linkedRepository], List.pairwise_singleton _ _⟩).toOption.any fun workspace =>
        let now := workspace.perform linkedPlace (.rescan fun _ _ => {})
        now.holder.registry.entries.any fun e => e.1 == linkedRepository &&
          (now.holder.tracker? e.2).any fun t =>
            t.recorded.paths.contains (.ofString "/depot/.git") &&
              t.recorded.paths.contains (.ofString "/depot/alias") &&
              now.checkFiles linkedPlace [.ofString "/depot/alias"] ==
                [⟨.ofString "/depot/kept", false, some linkedRepository.root⟩] := by
    decide +kernel
  obtain ⟨workspace, hopen⟩ := exists_openAt linkedPlace linkedSettings [.ofString "/depot"]
  refine ⟨workspace, hopen, ?_⟩
  rw [openAt, discover_linkedPlace] at hopen
  rw [hopen] at hscan
  obtain ⟨e, he, hscan⟩ := List.any_eq_true.mp hscan
  rw [Bool.and_eq_true, beq_iff_eq, Option.any_eq_true] at hscan
  obtain ⟨hrepository, t, ht, hscan⟩ := hscan
  simp only [Bool.and_eq_true, List.contains_iff_mem, beq_iff_eq] at hscan
  obtain ⟨⟨hgit, halias⟩, hcheck⟩ := hscan
  have hlisted {p : Path} (hp : p ∈ t.recorded.paths) :
      ∃ entry ∈ (workspace.perform linkedPlace (.rescan fun _ _ => {})).holder.valuesFor
        (Tracker.tracking linkedPlace) linkedRepository, entry.path = p := by
    refine ⟨.ofPath linkedPlace p, ?_, rfl⟩
    rw [← hrepository, valuesFor_eq he ht]
    exact Tracker.mem_ignoredEntries.mpr ⟨p, hp, rfl⟩
  exact ⟨hlisted hgit, hlisted halias, hcheck⟩

/-- There a check of the entry `.git` agrees. -/
theorem agrees_after_rescan_linkedPlace :
    ∃ workspace, openAt linkedPlace linkedSettings [.ofString "/depot"] = .ok workspace ∧
      linkedSettings.discovery.followLinks = false ∧
      let now := workspace.perform linkedPlace (.rescan fun _ _ => {})
      ∃ entry ∈ now.holder.valuesFor (Tracker.tracking linkedPlace) linkedRepository,
        entry.path = .ofString "/depot/.git" ∧
          now.Agrees linkedPlace linkedRepository entry.path := by
  obtain ⟨workspace, hopen, ⟨entry, hentry, hpath⟩, -, -⟩ := listed_in_linkedPlace
  have hset := ((fits_of_openAt hopen).perform linkedPlace (.rescan fun _ _ => {})).repositories
  rw [discover_linkedPlace] at hset
  obtain ⟨-, hspelled, hagrees, -⟩ := agrees_after_rescan hopen rfl [] (fun _ _ => {})
    linkedRepository (hset ▸ List.mem_singleton_self _) entry hentry
  refine ⟨workspace, hopen, rfl, entry, hentry, hpath, (hagrees (hspelled.mp ?_)).mpr ?_⟩
  · rw [hpath]
    decide +kernel
  · rw [hpath]
    change _ ∉ (workspace.perform linkedPlace (.rescan fun _ _ => {})).repositories.roots
    rw [hset]
    decide +kernel

/-- And a check of the link does not. -/
theorem disagrees_in_linkedPlace :
    ∃ workspace, openAt linkedPlace linkedSettings [.ofString "/depot"] = .ok workspace ∧
      linkedSettings.discovery.followLinks = false ∧
      let now := workspace.perform linkedPlace (.rescan fun _ _ => {})
      ∃ entry ∈ now.holder.valuesFor (Tracker.tracking linkedPlace) linkedRepository,
        now.checkFiles linkedPlace [entry.path] =
          [⟨.ofString "/depot/kept", false, some linkedRepository.root⟩] ∧
        ¬now.Agrees linkedPlace linkedRepository entry.path := by
  obtain ⟨workspace, hopen, -, ⟨entry, hentry, hpath⟩, hcheck⟩ := listed_in_linkedPlace
  rw [← hpath] at hcheck
  refine ⟨workspace, hopen, rfl, entry, hentry, hcheck, fun hagrees => ?_⟩
  have hsame := hcheck.symm.trans hagrees
  rw [List.singleton_inj, CheckResult.mk.injEq] at hsame
  exact Bool.false_ne_true hsame.2.1

end Workspace

end IgnoreAtlas
