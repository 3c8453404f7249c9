import IgnoreAtlas.Proofs.Workspace.Ownership

/-!
# Repositories inside repositories

A scan leaves to others what holds something named `.git`; a search finds there a root only if a
repository with files can be opened and the settings let the search come so far. These are different
tests, and here is what becomes of an entry that the scan leaves out.

- It is a root exactly when it passes the tests of the search.
- What is at or below it is routed to a root at or below it; only if it is no root, to the
  repository that has left it out.
- There such a file is ignored only if the rules ignore a directory above the entry. What they say
  of the entry itself, and of anything in it, counts for nothing.
-/

namespace IgnoreAtlas

namespace Scan.Job

variable {job : Job} {names part : List Name} {p : Path}

/-- The scan looks into the directory of the entry, and leaves the entry out because it holds
something named `.git`. -/
structure LeftOut (job : Job) (names : List Name) : Prop where
  below : names ≠ []
  present : (job.inside.entry? names).isSome
  above : names.dropLast ∈ (job.heeding false).reached
  unnamed : names.getLast? ≠ some .git
  marked : job.place.exists? ((job.path names).child .git)

theorem LeftOut.not_scanned (h : job.LeftOut names) : ¬job.Scanned names := fun hscan =>
  Bool.eq_false_iff.mp (hscan.bare names h.below List.prefix_rfl) h.marked

/-- Between the root and what is left out everything is scanned. -/
theorem LeftOut.scanned_of_prefix (h : job.LeftOut names) (hne : part ≠ []) (hpart : part <+: names)
    (hproper : part ≠ names) : job.Scanned part := by
  obtain ⟨front, last, rfl⟩ := (List.eq_nil_or_concat' names).resolve_left h.below
  have habove := h.above
  rw [List.dropLast_concat] at habove
  have hfront := (List.prefix_concat_iff.mp hpart).resolve_left hproper
  have hmem := mem_reached_of_prefix habove hfront
  exact (mem_reached_heeding_false.mp hmem).resolve_left hne

/-- What is not scanned, although no name on the way is `.git`, is left out, or something above it
is. -/
theorem scanned_or_exists_leftOut (hne : names ≠ []) (hpresent : (job.inside.entry? names).isSome)
    (hgit : Name.git ∉ names) : job.Scanned names ∨ ∃ part, part <+: names ∧ job.LeftOut part := by
  by_cases hbare : ∀ part, part ≠ [] → part <+: names →
      job.place.exists? ((job.path part).child .git) = false
  · exact .inl ⟨hne, hpresent, hgit, hbare⟩
  push Not at hbare
  obtain ⟨part, hpartNe, hpart, hmarked⟩ := hbare
  -- The first entry on the way that holds something named `.git` is the one that is left out.
  obtain ⟨first, hfirst, ⟨hfirstNe, hfirstMarked⟩, hfree⟩ :=
    exists_first_prefix (p := fun q => q ≠ [] ∧ job.place.exists? ((job.path q).child .git))
      ⟨hpartNe, by simpa using hmarked⟩
  have hon := hfirst.trans hpart
  have hthere {q : List Name} (hq : q <+: names) : (job.inside.entry? q).isSome := by
    obtain ⟨rest, rfl⟩ := hq
    exact Listing.isSome_entry?_of_append hpresent
  have habove : first.dropLast <+: first := List.dropLast_prefix first
  refine .inr ⟨first, hon, hfirstNe, hthere hon, mem_reached_heeding_false.mpr ?_, fun hlast => ?_,
    hfirstMarked⟩
  · by_cases hnil : first.dropLast = []
    · exact .inl hnil
    · refine .inr ⟨hnil, hthere (habove.trans hon), fun h => hgit ((habove.trans hon).subset h),
        fun q hq hqAbove => ?_⟩
      have hproper : q ≠ first := by
        rintro rfl
        have hlength := hqAbove.length_le
        have hpos := List.length_pos_iff.mpr hq
        rw [List.length_dropLast] at hlength
        omega
      rw [← Bool.not_eq_true]
      exact fun hq' => hfree q (hqAbove.trans habove) hproper ⟨hq, hq'⟩
  · exact hgit (hon.subset (List.mem_of_getLast? hlast))

/-- No name on the way to what is left out is `.git`. -/
theorem LeftOut.git_not_mem (h : job.LeftOut names) : Name.git ∉ names := by
  obtain ⟨front, last, rfl⟩ := (List.eq_nil_or_concat' names).resolve_left h.below
  intro hgit
  rcases List.mem_append.mp hgit with hfront | hlast
  · have hscan := h.scanned_of_prefix (List.ne_nil_of_mem hfront) (List.prefix_append front [last])
      (by simp)
    exact hscan.unnamed hfront
  · refine h.unnamed ?_
    rw [List.getLast?_concat, List.mem_singleton.mp hlast]

/-- At, above or below what is left out, a scan records only what is ignored above it. -/
theorem LeftOut.topmost_of_records (h : job.LeftOut names) (hrecords : job.Records part)
    (hon : part <+: names ∨ names <+: part) : part <+: names ∧ part ≠ names ∧ job.Topmost part := by
  rcases hrecords with htop | ⟨rfl, -⟩
  · rcases hon with habove | hbelow
    · exact ⟨habove, fun heq => h.not_scanned (heq ▸ htop.scanned), htop⟩
    · exact absurd (htop.scanned.of_prefix h.below hbelow) h.not_scanned
  · rcases hon with habove | hbelow
    · exact absurd (habove.subset List.mem_cons_self) h.git_not_mem
    · obtain ⟨rest, hnames, -⟩ := (List.prefix_cons_iff.mp hbelow).resolve_left h.below
      exact absurd (hnames ▸ List.mem_cons_self) h.git_not_mem

/-- At or below what is left out everything is ignored, or nothing: that depends on the directories
above it. -/
theorem LeftOut.holdsBelow_recorded_iff (h : job.LeftOut names) (hroot : job.root.isAbsolute)
    (hin : p.startsWith (job.path names)) :
    job.recorded.holdsBelow job.root p.ancestors ↔
      ∃ part, part ≠ [] ∧ part <+: names ∧ part ≠ names ∧ job.ignoresAt part := by
  have hp := Path.isAbsolute_of_startsWith (Path.isAbsolute_descend hroot names) hin
  rw [Path.startsWith_iff] at hin
  rw [PathSet.holdsBelow_ancestors hroot hp]
  constructor
  · rintro ⟨c, -, hc, hrec⟩
    obtain ⟨part, hrecords, rfl⟩ := (contains_recorded hroot).mp hrec
    have hon := (List.prefix_or_prefix_of_prefix hc hin).imp
      (Path.components_descend_prefix hroot).mp (Path.components_descend_prefix hroot).mp
    obtain ⟨habove, hproper, htop⟩ := h.topmost_of_records hrecords hon
    exact ⟨part, htop.scanned.below, habove, hproper, htop.ignored⟩
  · rintro ⟨part, hne, hpart, hproper, hignored⟩
    have hscan := h.scanned_of_prefix hne hpart hproper
    obtain ⟨top, hon, htop⟩ :=
      (exists_topmost_iff hscan).mpr ⟨part, hne, List.prefix_rfl, hignored⟩
    have hc := (Path.components_descend_prefix hroot).mpr (hon.trans hpart)
    exact ⟨(job.path top).components, Path.prefix_components_descend hroot top, hc.trans hin,
      (contains_recorded hroot).mpr ⟨top, .inl htop, rfl⟩⟩

/-- What is left out is no root when something at or below it belongs to the root that left it
out. -/
theorem LeftOut.not_mem_roots {set : RepositorySet} (h : job.LeftOut names)
    (hroot : job.root.isAbsolute) (hin : p.startsWith (job.path names))
    (hdeepest : RepositorySet.deepest? set.roots p = some job.root) :
    job.path names ∉ set.roots := by
  obtain ⟨-, -, hdeep⟩ := RepositorySet.deepest?_eq_some_iff.mp hdeepest
  intro hleft
  have hback : (job.path names).components <+: (job.path []).components :=
    Path.startsWith_iff.mp (hdeep _ hleft hin)
  exact h.below (List.prefix_nil.mp ((Path.components_descend_prefix hroot).mp hback))

/-- A file at or below what is left out belongs to a root at or below it, or else to the root that
left it out. -/
theorem LeftOut.exists_deepest? {set : RepositorySet} (h : job.LeftOut names)
    (hspelled : ∀ r ∈ set.roots, ∃ names, r = .ofLocation names) (hmarked : set.Marked job.place)
    (hmem : job.root ∈ set.roots) (hin : p.startsWith (job.path names)) :
    ∃ root ∈ set.roots, RepositorySet.deepest? set.roots p = some root ∧
      (root.startsWith (job.path names) ∨ root = job.root ∧ job.path names ∉ set.roots) := by
  obtain ⟨top, htop⟩ := hspelled _ hmem
  have hroot : job.root.isAbsolute := htop ▸ Path.isAbsolute_ofLocation top
  have hbelow : (job.path names).startsWith job.root :=
    Path.startsWith_iff.mpr (Path.prefix_components_descend hroot names)
  have haround := Path.startsWith_trans hin hbelow
  obtain ⟨root, hdeepest⟩ := RepositorySet.exists_deepest?_eq_some hmem haround
  obtain ⟨hroots, hfile, hdeep⟩ := RepositorySet.deepest?_eq_some_iff.mp hdeepest
  refine ⟨root, hroots, hdeepest, ?_⟩
  rcases List.prefix_or_prefix_of_prefix (Path.startsWith_iff.mp hin)
    (Path.startsWith_iff.mp hfile) with hunder | hover
  · exact .inl (Path.startsWith_iff.mpr hunder)
  rcases RepositorySet.startsWith_or_exists_descend hspelled hmem hroots
    (Path.startsWith_iff.mpr hover) with habove | ⟨part, hne, hpart, rfl⟩
  · -- The root is around the root of the scan, and that one around it.
    have hsame := Path.components_eq_of_startsWith (hdeep _ hmem haround) habove
    have heq : root = job.root :=
      List.inj_on_of_nodup_map set.nodup_components hroots hmem hsame
    exact .inr ⟨heq, h.not_mem_roots hroot hin (heq ▸ hdeepest)⟩
  · -- A root strictly between the two would hold something named `.git`.
    by_cases hproper : part = names
    · exact .inl (hproper ▸ Path.startsWith_self _)
    · have hbare := (h.scanned_of_prefix hne hpart hproper).bare part hne List.prefix_rfl
      exact absurd (hmarked _ hroots) (Bool.eq_false_iff.mp hbare)

end Scan.Job

/-- What holds something named `.git` is a root exactly when a repository with files can be opened
there and the search comes there. -/
theorem Scan.Job.LeftOut.mem_roots_discover_iff {job : Job} {names : List Name}
    (h : job.LeftOut names) {settings : DiscoverySettings} {starts : List Path} :
    job.path names ∈ (Discovery.discover job.place settings starts).roots ↔
      Repository.open? job.place (job.path names) = some .worktree ∧
        ∃ start ∈ starts, ∃ stand, Discovery.Visits job.place settings start stand ∧
          job.path names = stand.path := by
  rw [Discovery.mem_roots_discover_iff, Discovery.isRoot, h.marked, Bool.true_and, beq_iff_eq]

namespace Workspace

variable {set : RepositorySet} {settings : TrackerSettings} {workspace : Workspace} {place : Place}

/-- The answer for a file is that of the tracker that it is routed to. -/
theorem checkFile_eq (hfits : workspace.Fits set settings) {file : Path}
    {e : Repository × Handle} (he : e ∈ workspace.holder.registry.entries) {tracker : Tracker}
    (htracker : workspace.holder.tracker? e.2 = some tracker)
    (hroot : set.rootOf? place (place.normalize file) = some e.1.root) :
    (workspace.checkFile place file).1 = tracker.containsFile (place.normalize file) := by
  have hlocate := hfits.locate?_eq_some_iff.mpr ⟨rfl, e, he, rfl, hroot⟩
  simp only [checkFile, Holder.containsFile, hlocate, htracker]
  rfl

/-- After a round of scans a file that is routed to a repository is ignored when the record of a scan
says so. -/
theorem checkFile_rescan (hfits : workspace.Fits set settings) {e : Repository × Handle}
    (he : e ∈ workspace.holder.registry.entries) {job : Scan.Job}
    (hjob : Scan.Job.of? place settings e.1.root = some job) (react : Update.Reactions)
    {file : Path} (hfile : (place.normalize file).isAbsolute)
    (hroot : set.rootOf? place (place.normalize file) = some e.1.root) :
    ((workspace.perform place (.rescan react)).checkFile place file).1 =
      job.recorded.holdsBelow job.root (place.normalize file).ancestors := by
  have hstays : Request.rescan react ≠ .cleanAll := nofun
  have hregistry := registry_perform hfits place hstays
  have he' := hregistry.symm ▸ he
  obtain ⟨t, ht, ⟨hserves, -⟩, hrecorded⟩ :=
    ((hfits.perform place (.rescan react)).serves.and (each_recorded_rescan hfits place react)) e he'
  obtain ⟨-, -, hjobRoot⟩ := Scan.Job.of?_eq_some hjob
  rw [checkFile_eq (hfits.perform place (.rescan react)) he' ht hroot, Tracker.containsFile,
    Tracker.absolute, if_pos hfile, hrecorded job hjob, hserves, hjobRoot]

/-! ## What becomes of an entry that is left out -/

/-- An entry that the scan of a repository leaves out is a root exactly when a repository with files
can be opened there and the search comes there. A file at or below it is routed to a root at or
below it, or, if the entry is no root, to the repository that has left it out. In that case the file
is ignored after a scan when the rules ignore a directory between the two, whatever they say of the
entry and of what is in it. A file that is routed to a repository has been scanned there, as long as
each entry that is left out above it is a root. -/
theorem leftOut_iff {opened : Settings} {starts : List Path} {repository : Repository}
    {job : Scan.Job} (hopen : openAt place opened starts = .ok workspace)
    (hrepository : repository ∈ workspace.repositories.repositories)
    (hjob : Scan.Job.of? place opened.tracker repository.root = some job) :
    (∀ names, job.LeftOut names →
      (job.path names ∈ workspace.repositories.roots ↔
        Repository.open? place (job.path names) = some .worktree ∧
          ∃ start ∈ starts, ∃ stand, Discovery.Visits place opened.discovery start stand ∧
            job.path names = stand.path) ∧
        (∀ file, (place.normalize file).startsWith (job.path names) →
          ∃ root ∈ workspace.repositories.roots,
            workspace.repositories.rootOf? place file = some root ∧
              (root.startsWith (job.path names) ∨
                root = repository.root ∧ job.path names ∉ workspace.repositories.roots)) ∧
        ∀ run react file, (∀ step ∈ run, step.2 ≠ .cleanAll) →
          (place.normalize file).startsWith (job.path names) →
          workspace.repositories.rootOf? place (place.normalize file) = some repository.root →
          ((((workspace.after run).perform place (.rescan react)).checkFile place file).1 ↔
            ∃ part, part ≠ [] ∧ part <+: names ∧ part ≠ names ∧ job.ignoresAt part)) ∧
      ∀ names file, names ≠ [] → (job.inside.entry? names).isSome → Name.git ∉ names →
        (place.normalize file).same (job.path names) →
        workspace.repositories.rootOf? place file = some repository.root →
        (∀ part, part <+: names → job.LeftOut part →
          job.path part ∈ workspace.repositories.roots) →
        job.Scanned names := by
  have hfits := fits_of_openAt hopen
  obtain ⟨hset, hregistered, -⟩ := each_openAt hopen
  obtain ⟨rfl, -, hroot⟩ := Scan.Job.of?_eq_some hjob
  have hmem : job.root ∈ workspace.repositories.roots := hroot ▸ List.mem_map_of_mem hrepository
  have hspelled : ∀ r ∈ workspace.repositories.roots, ∃ names, r = .ofLocation names :=
    hset ▸ fun _ hr => Discovery.exists_path_of_mem_roots hr
  have hmarked : workspace.repositories.Marked job.place := hset ▸ Discovery.marked_discover
  obtain ⟨top, htop⟩ := hspelled _ hmem
  have habsolute : job.root.isAbsolute := htop ▸ Path.isAbsolute_ofLocation top
  refine ⟨fun names hleft => ⟨hset ▸ hleft.mem_roots_discover_iff, fun file hin => ?_,
    fun run react file hkept hin hrouted => ?_⟩,
    fun names file hne hpresent hgit hsame hrouted hroots => ?_⟩
  · obtain ⟨root, hroots, hdeepest, hwhere⟩ := hleft.exists_deepest? hspelled hmarked hmem hin
    exact ⟨root, hroots, hdeepest, hwhere.imp_right fun h => ⟨h.1.trans hroot, h.2⟩⟩
  · have hfile := Path.isAbsolute_of_startsWith (Path.isAbsolute_descend habsolute names) hin
    rw [← hregistered] at hrepository
    obtain ⟨e, he, rfl⟩ := List.mem_map.mp hrepository
    have he' : e ∈ (workspace.after run).holder.registry.entries :=
      (registry_after hfits hkept).symm ▸ he
    rw [checkFile_rescan (hfits.after run) he' hjob react hfile (hset ▸ hrouted),
      hleft.holdsBelow_recorded_iff habsolute hin]
  · refine (Scan.Job.scanned_or_exists_leftOut hne hpresent hgit).resolve_right ?_
    rintro ⟨part, hpart, hleft⟩
    have hin : (job.place.normalize file).startsWith (job.path part) := by
      rw [Path.startsWith_iff, Path.same_iff.mp hsame]
      exact (Path.components_descend_prefix habsolute).mpr hpart
    rw [← hroot] at hrouted
    exact hleft.not_mem_roots habsolute hin hrouted (hroots part hpart hleft)

/-! ## A directory that nobody looks at -/

/-- A repository `/home/outer` that ignores the directory `vendor`, which holds a file and an empty
directory `.git`. -/
def hollowPlace : Place where
  files :=
    { top := .dir (.spell "home")
        (.dir (.spell "outer")
          (.dir .git gitListing <| .file .gitignore (.literal (Utf8.encode "vendor")) <|
            .dir (.spell "vendor")
              (.dir .git .empty <| .file (.spell "file") (.literal []) .empty) .empty) .empty) .empty
      distinct := by decide +kernel }
  cwd := []
  home := .ofString "/home"

/-- Settings as they come. -/
def hollowSettings : Settings := { workspacePaths := [] }

/-- The repository of that place. -/
def hollowRepository : Repository := .ofRoot (.ofString "/home/outer")

/-- What is found: that repository alone. -/
def hollowSet : RepositorySet := ⟨[hollowRepository], by decide +kernel⟩

/-- The file in the directory. -/
def hollowFile : Path := .ofString "/home/outer/vendor/file"

theorem discover_hollowPlace :
    Discovery.discover hollowPlace hollowSettings.discovery [.ofString "/home"] = hollowSet :=
  Discovery.discover_eq (by decide +kernel)

/-- The scan leaves the directory out, although it is ignored. -/
theorem exists_leftOut_hollowPlace :
    ∃ job, Scan.Job.of? hollowPlace hollowSettings.tracker hollowRepository.root = some job ∧
      job.LeftOut [.spell "vendor"] ∧ job.ignoresAt [.spell "vendor"] := by
  have hfacts : (Scan.Job.of? hollowPlace hollowSettings.tracker hollowRepository.root).any fun job =>
      (job.inside.entry? [.spell "vendor"]).isSome &&
        job.place.exists? ((job.path [.spell "vendor"]).child .git) &&
        job.ignoresAt [.spell "vendor"] := by
    decide +kernel
  obtain ⟨job, hjob, hfacts⟩ := (Option.any_eq_true _ _).mp hfacts
  simp only [Bool.and_eq_true] at hfacts
  obtain ⟨⟨hpresent, hmarked⟩, hignored⟩ := hfacts
  exact ⟨job, hjob, ⟨by simp, hpresent, List.mem_cons_self, by decide +kernel, hmarked⟩, hignored⟩

/-- Nothing can be opened there, and so the file is routed to the repository around the directory.
That one does not take it for ignored. -/
theorem leftOut_iff_hollowPlace :
    ∃ workspace job, openAt hollowPlace hollowSettings [.ofString "/home"] = .ok workspace ∧
      hollowRepository ∈ workspace.repositories.repositories ∧
      Scan.Job.of? hollowPlace hollowSettings.tracker hollowRepository.root = some job ∧
      job.LeftOut [.spell "vendor"] ∧ job.path [.spell "vendor"] ∉ workspace.repositories.roots ∧
      ((workspace.perform hollowPlace (.rescan fun _ _ => {})).checkFile hollowPlace
        hollowFile).1 = false := by
  obtain ⟨workspace, hopen⟩ := exists_openAt hollowPlace hollowSettings [.ofString "/home"]
  obtain ⟨job, hjob, hleft, -⟩ := exists_leftOut_hollowPlace
  have hset : workspace.repositories = hollowSet :=
    (each_openAt hopen).1.trans discover_hollowPlace
  have hmem : hollowRepository ∈ workspace.repositories.repositories := hset ▸ List.mem_cons_self
  obtain ⟨hfound, -, hanswer⟩ := (leftOut_iff hopen hmem hjob).1 _ hleft
  have hpath : job.path [.spell "vendor"] = hollowRepository.root.descend [.spell "vendor"] := by
    rw [Scan.Job.path, (Scan.Job.of?_eq_some hjob).2.2]
  have hclosed : Repository.open? hollowPlace (hollowRepository.root.descend [.spell "vendor"]) = none :=
    by decide +kernel
  have hspelled : hollowPlace.normalize hollowFile = hollowFile := by decide +kernel
  refine ⟨workspace, job, hopen, hmem, hjob, hleft, fun hroot => ?_, ?_⟩
  · have hopens := (hfound.mp hroot).1
    rw [hpath, hclosed] at hopens
    cases hopens
  · have hin : (hollowPlace.normalize hollowFile).startsWith (job.path [.spell "vendor"]) := by
      rw [hpath, hspelled]
      decide +kernel
    have hrouted : workspace.repositories.rootOf? hollowPlace (hollowPlace.normalize hollowFile) =
        some hollowRepository.root := by
      rw [hspelled, hset]
      decide +kernel
    have hiff := hanswer [] (fun _ _ => {}) hollowFile (fun _ h => absurd h List.not_mem_nil) hin
      hrouted
    refine Bool.eq_false_iff.mpr fun h => ?_
    obtain ⟨part, hne, hpart, hproper, -⟩ := hiff.mp h
    obtain ⟨rest, rfl, hrest⟩ := (List.prefix_cons_iff.mp hpart).resolve_left hne
    exact hproper (by rw [List.prefix_nil.mp hrest])

/-- The directory is left out because it holds something named `.git`, is no root, and is ignored by
the rules; the file in it is not reported as ignored. -/
theorem unseen_in_hollowPlace :
    ∃ workspace job, openAt hollowPlace hollowSettings [.ofString "/home"] = .ok workspace ∧
      hollowRepository ∈ workspace.repositories.repositories ∧
      Scan.Job.of? hollowPlace hollowSettings.tracker hollowRepository.root = some job ∧
      job.LeftOut [.spell "vendor"] ∧ job.ignoresAt [.spell "vendor"] ∧
      job.path [.spell "vendor"] ∉ workspace.repositories.roots ∧
      (workspace.perform hollowPlace (.rescan fun _ _ => {})).checkFile hollowPlace hollowFile =
        (false, some hollowRepository) := by
  have hanswer : (ofRepositories hollowPlace hollowSettings.tracker hollowSet).toOption.any
      fun workspace => (workspace.perform hollowPlace (.rescan fun _ _ => {})).checkFile hollowPlace
        hollowFile = (false, some hollowRepository) := by
    decide +kernel
  obtain ⟨workspace, hopen⟩ := exists_openAt hollowPlace hollowSettings [.ofString "/home"]
  obtain ⟨job, hjob, hleft, hignored⟩ := exists_leftOut_hollowPlace
  have hset : workspace.repositories = hollowSet :=
    (each_openAt hopen).1.trans discover_hollowPlace
  have hmem : hollowRepository ∈ workspace.repositories.repositories := hset ▸ List.mem_cons_self
  refine ⟨workspace, job, hopen, hmem, hjob, hleft, hignored, ?_, ?_⟩
  · rw [hset, Scan.Job.path, (Scan.Job.of?_eq_some hjob).2.2]
    decide +kernel
  · rw [openAt, discover_hollowPlace] at hopen
    rw [hopen, Except.toOption, Option.any_some, decide_eq_true_eq] at hanswer
    exact hanswer

end Workspace

end IgnoreAtlas
