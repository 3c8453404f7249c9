import IgnoreAtlas.Proofs.Path.Settled
import IgnoreAtlas.Proofs.Workspace.Ownership

/-!
# What a check answers

A check takes its answer together from three lookups, and a file is spelled normally on the way to
each: once for the path of the answer, once more for what is asked of a tracker, and a third time for
the root that the file is routed to. The repository of the answer is that of the deepest root around
the third spelling, and the file is ignored when an entry of that repository is at or above the second
one (`Answers`). Both come from one tracker, since no two repositories share one
(`Fits.eq_of_handle_eq`), and since nothing is recorded outside the root of its tracker
(`each_contained_after`).

So an answer is about the path that it names whenever a normal spelling stays as it is. It does not
stay for a path through too many links, and then an answer can be wrong.
-/

namespace IgnoreAtlas

/-- Of the roots around the path this one is the deepest. -/
def RepositorySet.Deepest (set : RepositorySet) (root p : Path) : Prop :=
  root ∈ set.roots ∧ p.startsWith root ∧ ∀ r ∈ set.roots, p.startsWith r → root.startsWith r

/-! ## What a tracker answers -/

namespace Tracker

variable {tracker : Tracker} {place : Place} {file : Path}

/-- Everything recorded is at or below the root. -/
def Contained (tracker : Tracker) : Prop := ∀ p ∈ tracker.recorded.paths, p.startsWith tracker.root

theorem contained_rescan (hroot : tracker.root.isAbsolute) (h : tracker.Contained) :
    (tracker.rescan place).2.Contained := by
  unfold rescan
  split
  · next recorded hrecord =>
    obtain ⟨job, hjob, rfl⟩ := Scan.exists_job_of_record hrecord
    obtain ⟨-, -, hsame⟩ := Scan.Job.of?_eq_some hjob
    intro p hp
    obtain ⟨names, -, hc⟩ := (Scan.Job.contains_recorded (hsame ▸ hroot)).mp
      (PathSet.contains_iff.mpr (List.mem_map_of_mem hp))
    rw [Path.startsWith_iff, hc, Scan.Job.path, hsame]
    exact Path.prefix_components_descend hroot names
  · exact h

theorem contained_addFile (h : tracker.Contained) : (tracker.addFile file).Contained := by
  unfold addFile
  dsimp only
  split
  · next hin =>
    intro p hp
    rcases PathSet.mem_paths_insert hp with hp | rfl
    · exact h p hp
    · exact (Bool.and_eq_true_iff.mp hin).1
  · exact h

/-- A tracker says that a file is ignored when one of its entries is at or above the file. -/
theorem containsFile_iff (h : tracker.Contained) (hroot : tracker.root.isAbsolute)
    (hfile : file.isAbsolute) :
    tracker.containsFile file ↔
      ∃ entry ∈ tracker.ignoredEntries place, file.startsWith entry.path := by
  have habsolute : tracker.absolute file = file := if_pos hfile
  rw [containsFile, habsolute, PathSet.holdsBelow_ancestors hroot hfile]
  simp only [mem_ignoredEntries, PathSet.contains_iff, List.mem_map]
  constructor
  · rintro ⟨_, -, habove, p, hp, rfl⟩
    exact ⟨_, ⟨p, hp, rfl⟩, Path.startsWith_iff.mpr habove⟩
  · rintro ⟨_, ⟨p, hp, rfl⟩, habove⟩
    exact ⟨p.components, Path.startsWith_iff.mp (h p hp), Path.startsWith_iff.mp habove, p, hp, rfl⟩

end Tracker

namespace Workspace

variable {set : RepositorySet} {settings : TrackerSettings} {workspace : Workspace} {place : Place}

/-! ## Along a run -/

theorem each_contained_perform (hfits : workspace.Fits set settings)
    (habsolute : ∀ r ∈ set.roots, r.isAbsolute)
    (h : workspace.holder.Each fun _ t => t.Contained) (request : Request) :
    (workspace.perform place request).holder.Each fun _ t => t.Contained := by
  cases request with
  | rescan react =>
    refine (each_rescan (hfits.serves.and h) place react fun e he t ht => ?_).2.1.imp
      fun _ _ => And.right
    refine ⟨serves_rescan ht.1, Tracker.contained_rescan ?_ ht.2⟩
    -- The root of a tracker is one of those of the workspace.
    rw [ht.1.1]
    exact habsolute _ (List.mem_map_of_mem (hfits.mem_repositories he))
  | add file => exact (hfits.each_add h fun _ _ _ _ _ => Tracker.contained_addFile).2
  | check file =>
    rw [perform_check]
    exact h
  | cleanAll => exact Holder.each_cleanAll _ _

theorem each_contained_after (hfits : workspace.Fits set settings)
    (habsolute : ∀ r ∈ set.roots, r.isAbsolute)
    (h : workspace.holder.Each fun _ t => t.Contained) (run : List (Place × Request)) :
    (workspace.after run).holder.Each fun _ t => t.Contained := by
  induction run generalizing workspace with
  | nil => exact h
  | cons step run ih =>
    exact ih (hfits.perform step.1 step.2) (each_contained_perform hfits habsolute h step.2)

theorem each_contained_of_openAt {opened : Settings} {starts : List Path}
    (hopen : openAt place opened starts = .ok workspace) (run : List (Place × Request)) :
    (workspace.after run).holder.Each fun _ t => t.Contained := by
  refine each_contained_after (fits_of_openAt hopen) (fun r hr => ?_) ?_ run
  · obtain ⟨names, rfl⟩ := Discovery.exists_path_of_mem_roots hr
    exact Path.isAbsolute_ofLocation names
  · refine (each_openAt hopen).2.2.imp fun r t ht => ?_
    rw [Tracker.open?_eq_ok ht]
    exact fun _ hp => absurd hp List.not_mem_nil

/-- Until all trackers are let go of, every repository that was found has one. -/
theorem repositories_after {opened : Settings} {starts : List Path}
    (hopen : openAt place opened starts = .ok workspace) (run : List (Place × Request))
    (h : ∀ step ∈ run, step.2 ≠ .cleanAll) :
    (workspace.after run).holder.repositories =
      (Discovery.discover place opened.discovery starts).repositories := by
  have hfits := fits_of_openAt hopen
  rw [Holder.repositories, registry_after hfits h, ← hfits.repositories]
  exact (each_openAt hopen).2.1

/-- Once all trackers have been let go of there are none. -/
theorem registry_after_of_cleanAll (hfits : workspace.Fits set settings)
    {run : List (Place × Request)} (h : ∃ step ∈ run, step.2 = .cleanAll) :
    (workspace.after run).holder.registry = .empty := by
  have hempty {now : Workspace} (hnow : now.Fits set settings)
      (hnone : now.holder.registry = .empty) (step : Place × Request) :
      (now.perform step.1 step.2).holder.registry = .empty := by
    by_cases hclean : step.2 = .cleanAll
    · rw [hclean]
      exact Holder.registry_cleanAll _ _
    · rw [registry_perform hnow step.1 hclean, hnone]
  -- From the last request backwards: it lets go of the trackers, or they are gone before it.
  induction run using List.reverseRecOn with
  | nil => obtain ⟨_, hstep, _⟩ := h; exact absurd hstep List.not_mem_nil
  | append_singleton front last ih =>
    rw [after_append]
    obtain ⟨step, hstep, hclean⟩ := h
    rcases List.mem_append.mp hstep with hfront | hlast
    · exact hempty (hfits.after front) (ih ⟨step, hfront, hclean⟩) last
    · rw [← List.mem_singleton.mp hlast]
      change ((workspace.after front).perform step.1 step.2).holder.registry = .empty
      rw [hclean]
      exact Holder.registry_cleanAll _ _

/-! ## Whose a file is -/

/-- Two repositories with one tracker are one. -/
theorem Fits.eq_of_handle_eq (h : workspace.Fits set settings) {a b : Repository × Handle}
    (ha : a ∈ workspace.holder.registry.entries) (hb : b ∈ workspace.holder.registry.entries)
    (hsame : a.2 = b.2) : a = b := by
  obtain ⟨t, ht, hserves, -⟩ := h.serves a ha
  obtain ⟨t', ht', hserves', -⟩ := h.serves b hb
  rw [hsame, ht', Option.some_inj] at ht
  -- A tracker has one root, and it is by their roots that repositories are told apart.
  refine Registry.eq_of_components_eq ha hb ?_
  rw [← hserves, ← hserves', ht]

/-- The repository that a file is resolved to. -/
def ownerOf? (workspace : Workspace) (place : Place) (file : Path) : Option Repository :=
  workspace.holder.repositoryFor? place (workspace.repositories.router place) file

/-- What the holder answers to whether a file is ignored. -/
def ignores (workspace : Workspace) (place : Place) (file : Path) : Bool :=
  (workspace.holder.containsFile place (workspace.repositories.router place)
    (Tracker.tracking place) file).1

/-- A file is of the repository that its tracker is for. -/
theorem Fits.ownerOf?_eq_some_iff (h : workspace.Fits set settings) {file : Path}
    {r : Repository} :
    workspace.ownerOf? place file = some r ↔
      r ∈ workspace.holder.repositories ∧
        set.rootOf? place (place.normalize file) = some r.root := by
  have hfind {handle : Handle} {e : Repository × Handle} :
      workspace.holder.registry.entries.find? (·.2 == handle) = some e ↔
        e ∈ workspace.holder.registry.entries ∧ e.2 = handle := by
    rw [find?_eq_some_iff_of_unique, beq_iff_eq]
    intro a ha b hb hsame hsame'
    rw [beq_iff_eq] at hsame hsame'
    exact h.eq_of_handle_eq ha hb (hsame.trans hsame'.symm)
  unfold ownerOf? Holder.repositoryFor?
  simp only [Option.bind_eq_bind, Option.bind_eq_some_iff, Option.map_eq_some_iff, hfind]
  constructor
  · rintro ⟨⟨handle, spelled⟩, hlocate, e, ⟨he, hhandle⟩, rfl⟩
    obtain ⟨rfl, e', he', rfl, hroot⟩ := h.locate?_eq_some_iff.mp hlocate
    rw [h.eq_of_handle_eq he he' hhandle]
    exact ⟨List.mem_map_of_mem he', hroot⟩
  · rintro ⟨hr, hroot⟩
    obtain ⟨e, he, rfl⟩ := List.mem_map.mp hr
    exact ⟨_, h.locate?_eq_some_iff.mpr ⟨rfl, e, he, rfl, hroot⟩, e, ⟨he, rfl⟩, rfl⟩

/-- It is ignored when that tracker says so. -/
theorem Fits.ignores_iff_containsFile (h : workspace.Fits set settings) {file : Path} :
    workspace.ignores place file ↔
      ∃ e ∈ workspace.holder.registry.entries,
        set.rootOf? place (place.normalize file) = some e.1.root ∧
          ∃ t, workspace.holder.tracker? e.2 = some t ∧ t.containsFile (place.normalize file) := by
  rw [ignores, Holder.containsFile]
  cases hlocate : Holder.locate? place (workspace.repositories.router place) workspace.holder file with
  | none =>
    refine ⟨nofun, fun ⟨e, he, hroot, _⟩ => ?_⟩
    have hsome := h.locate?_eq_some_iff.mpr ⟨rfl, e, he, rfl, hroot⟩
    rw [hlocate] at hsome
    cases hsome
  | some found =>
    obtain ⟨handle, spelled⟩ := found
    obtain ⟨rfl, e, he, rfl, hroot⟩ := h.locate?_eq_some_iff.mp hlocate
    obtain ⟨t, ht, -⟩ := h.serves e he
    simp only [ht]
    refine ⟨fun hasked => ⟨e, he, hroot, t, ht, hasked⟩, ?_⟩
    rintro ⟨e', he', hroot', t', ht', hasked⟩
    have hsame : e' = e := Registry.eq_of_components_eq he' he (by
      rw [Option.some.inj (hroot'.symm.trans hroot)])
    rw [hsame, ht, Option.some_inj] at ht'
    exact ht' ▸ hasked

/-- A file is ignored when an entry of its repository is at or above it. -/
theorem Fits.ignores_iff (h : workspace.Fits set settings)
    (hspelled : ∀ r ∈ set.roots, ∃ names, r = .ofLocation names)
    (hcontained : workspace.holder.Each fun _ t => t.Contained) {file : Path} :
    workspace.ignores place file ↔
      ∃ r ∈ workspace.holder.repositories,
        set.rootOf? place (place.normalize file) = some r.root ∧
          ∃ entry ∈ workspace.holder.valuesFor (Tracker.tracking place) r,
            (place.normalize file).startsWith entry.path := by
  -- The tracker of the repository answers for the entries of the repository.
  have hanswer {e : Repository × Handle} (he : e ∈ workspace.holder.registry.entries)
      (hroot : set.rootOf? place (place.normalize file) = some e.1.root) :
      (∃ t, workspace.holder.tracker? e.2 = some t ∧ t.containsFile (place.normalize file)) ↔
        ∃ entry ∈ workspace.holder.valuesFor (Tracker.tracking place) e.1,
          (place.normalize file).startsWith entry.path := by
    obtain ⟨t, ht, ⟨hserves, -⟩, hin⟩ := h.serves.and hcontained e he
    obtain ⟨names, hnames⟩ := hspelled _ (List.mem_map_of_mem (h.mem_repositories he))
    have habsolute : t.root.isAbsolute := by
      rw [hserves, hnames]
      exact Path.isAbsolute_ofLocation names
    have hfile := isAbsolute_of_rootOf? hspelled hroot
    rw [valuesFor_eq he ht, ht]
    simpa using Tracker.containsFile_iff hin habsolute hfile
  rw [h.ignores_iff_containsFile]
  constructor
  · rintro ⟨e, he, hroot, hasked⟩
    exact ⟨e.1, List.mem_map_of_mem he, hroot, (hanswer he hroot).mp hasked⟩
  · rintro ⟨r, hr, hroot, hentry⟩
    obtain ⟨e, he, rfl⟩ := List.mem_map.mp hr
    exact ⟨e, he, hroot, (hanswer he hroot).mpr hentry⟩

/-! ## Answers -/

/-- What a check answers when the trackers are asked for `asked` and the file is routed by `routed`. -/
structure Answers (workspace : Workspace) (place : Place) (asked routed : Path)
    (result : CheckResult) : Prop where
  /-- The repository is that of the deepest root, if its tracker is still there. -/
  repository : ∀ root, result.repository = some root ↔
    root ∈ workspace.holder.repositories.map Repository.root ∧
      workspace.repositories.Deepest root routed
  /-- The file is ignored when an entry of the repository is at or above it. -/
  ignored : result.ignored ↔ ∃ r ∈ workspace.holder.repositories,
    result.repository = some r.root ∧
      ∃ entry ∈ workspace.holder.valuesFor (Tracker.tracking place) r,
        asked.startsWith entry.path

/-- An answer says that the file is ignored and is of a repository exactly when that one is the deepest
and has an entry at or above it. -/
theorem Answers.ignored_and_repository_iff {asked routed : Path} {result : CheckResult}
    (h : workspace.Answers place asked routed result) {r : Repository}
    (hr : r ∈ workspace.holder.repositories) :
    result.ignored ∧ result.repository = some r.root ↔
      workspace.repositories.Deepest r.root routed ∧
        ∃ entry ∈ workspace.holder.valuesFor (Tracker.tracking place) r,
          asked.startsWith entry.path := by
  constructor
  · rintro ⟨hignored, hroot⟩
    obtain ⟨other, hother, hsame, hentry⟩ := h.ignored.mp hignored
    refine ⟨((h.repository r.root).mp hroot).2, ?_⟩
    obtain ⟨e, he, rfl⟩ := List.mem_map.mp hr
    obtain ⟨e', he', rfl⟩ := List.mem_map.mp hother
    rw [hroot, Option.some_inj] at hsame
    rwa [Registry.eq_of_components_eq he he' (by rw [hsame])]
  · rintro ⟨hdeepest, hentry⟩
    have hroot := (h.repository r.root).mpr ⟨List.mem_map_of_mem hr, hdeepest⟩
    exact ⟨h.ignored.mpr ⟨r, hr, hroot, hentry⟩, hroot⟩

/-- The result of a check of one file. -/
def resultFor (workspace : Workspace) (place : Place) (file : Path) : CheckResult :=
  let answer := workspace.checkFile place (place.normalize file)
  ⟨place.normalize file, answer.1, answer.2.map Repository.root⟩

theorem checkFiles_eq (workspace : Workspace) (place : Place) (files : List Path) :
    workspace.checkFiles place files = files.map (workspace.resultFor place) := rfl

/-- Asking a tracker does not change what is asked for next. -/
theorem checkFile_eq_pair (workspace : Workspace) (place : Place) (file : Path) :
    workspace.checkFile place file = (workspace.ignores place file, workspace.ownerOf? place file) := by
  have hsame : (workspace.holder.containsFile place (workspace.repositories.router place)
      (Tracker.tracking place) file).2 = workspace.holder :=
    congrArg holder (perform_check workspace place file)
  exact congrArg (fun holder => (workspace.ignores place file,
    Holder.repositoryFor? place (workspace.repositories.router place) holder file)) hsame

/-- A result is about the second and the third normal spelling of its file. -/
theorem Fits.answers_resultFor (h : workspace.Fits set settings)
    (hspelled : ∀ r ∈ set.roots, ∃ names, r = .ofLocation names)
    (hcontained : workspace.holder.Each fun _ t => t.Contained) (place : Place) (file : Path) :
    workspace.Answers place (place.normalize (place.normalize file))
      (place.normalize (place.normalize (place.normalize file)))
      (workspace.resultFor place file) := by
  obtain rfl := h.repositories
  have hrepository (root : Path) : (workspace.resultFor place file).repository = some root ↔
      root ∈ workspace.holder.repositories.map Repository.root ∧
        workspace.repositories.rootOf? place (place.normalize (place.normalize file)) =
          some root := by
    rw [resultFor, checkFile_eq_pair]
    simp only [Option.map_eq_some_iff, h.ownerOf?_eq_some_iff, List.mem_map]
    constructor
    · rintro ⟨r, ⟨hr, hroot⟩, rfl⟩
      exact ⟨⟨r, hr, rfl⟩, hroot⟩
    · rintro ⟨⟨r, hr, rfl⟩, hroot⟩
      exact ⟨r, ⟨hr, hroot⟩, rfl⟩
  constructor
  · intro root
    rw [hrepository, RepositorySet.rootOf?, RepositorySet.deepest?_eq_some_iff]
    rfl
  · have hignored : (workspace.resultFor place file).ignored =
        workspace.ignores place (place.normalize file) := by
      rw [resultFor, checkFile_eq_pair]
    rw [hignored, h.ignores_iff hspelled hcontained]
    refine exists_congr fun r => and_congr_right fun hr => and_congr_left fun _ => ?_
    rw [hrepository, and_iff_right (List.mem_map_of_mem hr)]

/-- **What checks answer.** In every state that an opened workspace comes to there is one result for
each file, in their order. It names the normal spelling of the file and depends on that alone. Its
repository is that of the deepest root around the third normal spelling, as long as the trackers have
not been let go of, and the file is ignored when an entry of that repository is at or above the second
one; so no file is ignored that is no one's. Where the spelling that is named stays as it is, all this
is about the path that is named, and it stays unless the file gives up. -/
theorem answers_after {opened : Settings} {starts : List Path}
    (hopen : openAt place opened starts = .ok workspace) (run : List (Place × Request)) :
    let now := workspace.after run
    now.repositories = Discovery.discover place opened.discovery starts ∧
      ((∀ step ∈ run, step.2 ≠ .cleanAll) →
        now.holder.repositories = now.repositories.repositories) ∧
      ((∃ step ∈ run, step.2 = .cleanAll) → now.holder.repositories = []) ∧
      ∀ view : Place, ∃ answer : Path → CheckResult,
        (∀ files, now.checkFiles view files = files.map answer) ∧
          (∀ file other, view.normalize file = view.normalize other → answer file = answer other) ∧
          ∀ file,
            let result := answer file
            let again := view.normalize result.path
            result.path = view.normalize file ∧
              now.Answers view again (view.normalize again) result ∧
              (result.ignored → result.repository.isSome) ∧
              (again = result.path → now.Answers view result.path result.path result) ∧
              (¬view.GivesUp file → again = result.path) := by
  have hfits := fits_of_openAt hopen
  have hnow := hfits.after run
  refine ⟨hnow.repositories, fun hkept => ?_, fun hgone => ?_, fun view =>
    ⟨(workspace.after run).resultFor view, fun files => rfl, fun file other hsame => ?_,
      fun file => ?_⟩⟩
  · rw [repositories_after hopen run hkept, hnow.repositories]
  · rw [Holder.repositories, registry_after_of_cleanAll hfits hgone]
    rfl
  · rw [resultFor, hsame, resultFor]
  · have hanswers := hnow.answers_resultFor
      (fun _ => Discovery.exists_path_of_mem_roots) (each_contained_of_openAt hopen run) view file
    refine ⟨rfl, hanswers, fun hignored => ?_, fun hagain => ?_, Place.normalize_normalize⟩
    · obtain ⟨r, -, hr, -⟩ := hanswers.ignored.mp hignored
      rw [hr]
      rfl
    · change view.normalize (view.normalize file) = view.normalize file at hagain
      rw [hagain, hagain] at hanswers
      exact hanswers

/-- After a scan a file is of the repository around it. -/
theorem answers_after_loopingPlace :
    ∃ workspace, openAt loopingPlace loopingSettings [.ofString "/w"] = .ok workspace ∧
      ∃ result,
        (workspace.after [(loopingPlace, .rescan fun _ _ => {})]).checkFiles loopingPlace
            [.ofString "/w/a/./x"] = [result] ∧
          result.path = .ofString "/w/a/x" ∧ result.repository = some (.ofString "/w/a") := by
  obtain ⟨workspace, hopen⟩ := exists_openAt loopingPlace loopingSettings [.ofString "/w"]
  obtain ⟨hset, hkept, -, hview⟩ := answers_after hopen [(loopingPlace, .rescan fun _ _ => {})]
  obtain ⟨answer, hchecks, -, hanswer⟩ := hview loopingPlace
  obtain ⟨hpath, -, -, hstays, -⟩ := hanswer (.ofString "/w/a/./x")
  have hspelled : loopingPlace.normalize (.ofString "/w/a/./x") = .ofString "/w/a/x" := by
    decide +kernel
  have hagain : loopingPlace.normalize (.ofString "/w/a/x") = .ofString "/w/a/x" := by
    decide +kernel
  rw [hspelled] at hpath
  refine ⟨workspace, hopen, _, hchecks _, hpath, ?_⟩
  rw [hpath] at hstays
  refine ((hstays hagain).repository (.ofString "/w/a")).mpr ?_
  rw [hkept (by simp), hset, discover_loopingPlace]
  constructor
  · decide +kernel
  · unfold RepositorySet.Deepest
    decide +kernel

/-- With a file through too many links the answer is not about the path that it names: that one is
an entry of the inner repository, and the answer is that of the outer one. -/
theorem misanswered_in_loopingPlace :
    ∃ workspace, openAt loopingPlace loopingSettings [.ofString "/w"] = .ok workspace ∧
      let now := workspace.after [(loopingPlace, .rescan fun _ _ => {})]
      let result : CheckResult := ⟨.ofString "/w/a/s/l", false, some (.ofString "/w/a")⟩
      now.checkFiles loopingPlace [loopingFile] = [result] ∧
        result.path = loopingPlace.normalize loopingFile ∧
        ¬now.Answers loopingPlace result.path result.path result := by
  have hresult : (ofRepositories loopingPlace loopingSettings.tracker loopingSet).toOption.any
      fun workspace =>
        (workspace.after [(loopingPlace, .rescan fun _ _ => {})]).checkFiles loopingPlace
          [loopingFile] == [⟨.ofString "/w/a/s/l", false, some (.ofString "/w/a")⟩] := by
    decide +kernel
  obtain ⟨workspace, hopen⟩ := exists_openAt loopingPlace loopingSettings [.ofString "/w"]
  have hrepositories := repositories_after hopen [(loopingPlace, .rescan fun _ _ => {})] (by simp)
  have hset := ((fits_of_openAt hopen).after [(loopingPlace, .rescan fun _ _ => {})]).repositories
  rw [discover_loopingPlace] at hrepositories hset
  refine ⟨workspace, hopen, ?_, by decide +kernel, fun hanswers => ?_⟩
  · rw [openAt, discover_loopingPlace] at hopen
    rw [hopen] at hresult
    exact beq_iff_eq.mp hresult
  · have hinner := (hanswers.repository (.ofString "/w/a/s")).mpr (by
      rw [hrepositories, hset]
      unfold RepositorySet.Deepest
      decide +kernel)
    exact absurd hinner (by decide +kernel)

end Workspace

end IgnoreAtlas
