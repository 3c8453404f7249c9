import IgnoreAtlas.Proofs.Measure.Volume
import IgnoreAtlas.Proofs.Workspace.Agreement
import IgnoreAtlas.Proofs.Workspace.Reachability

/-!
# The numbers of a workspace

The numbers of a repository are those of the files that its entries hold, and a scan records topmost
entries, so none of these files is held twice. What they count follows from where the roots are
(`Scan.Job.Scanned.around_or_held`): on the way from a root to a recorded entry there is no other root,
so a file below the entry belongs to the same repository, or to one whose root the entry holds too.

The second case is real. A search looks for roots in ignored directories as well, and a scan does not
look into a directory that it records; then the outer repository has an entry around the inner one and
counts the files of that one with its own, whatever is ignored there
(`counted_unignored_in_submodulePlace`). `stats_after_rescan` says that nothing else goes wrong.
-/

namespace IgnoreAtlas

namespace Scan.Job

variable {set : RepositorySet} {job : Job} {names : List Name}

/-- The entry `.git` of the root is left out of the numbers, and nothing else that a scan records. -/
theorem isExcluded_path_iff (hroot : job.root.isAbsolute) (h : job.Records names) :
    Measure.isExcluded Workspace.uncounted (job.path names) ↔ names = [.git] := by
  have hname (front : List Name) (n : Name) : (job.path (front ++ [n])).fileName? = some n := by
    rw [path, Path.fileName?, Path.components_descend hroot]
    simp
  have hbytes : Name.git.bytes = Utf8.encode ".git" := by decide +kernel
  rw [Measure.isExcluded_iff]
  constructor
  · rintro ⟨n, hn, name, hmem, hsame⟩
    obtain ⟨front, last, rfl⟩ := (List.eq_nil_or_concat' names).resolve_left h.ne_nil
    rw [hname, Option.some_inj] at hn
    rw [Workspace.uncounted, List.mem_singleton] at hmem
    rw [hmem, ← hbytes, ← hn] at hsame
    obtain rfl : last = .git := by
      cases last
      cases hsame
      rfl
    rcases h with htop | ⟨hgit, -⟩
    · exact absurd (List.mem_append_right front (List.mem_singleton_self _)) htop.scanned.unnamed
    · exact hgit
  · rintro rfl
    exact ⟨.git, hname [] .git, ".git", List.mem_singleton_self _, hbytes⟩

/-- A root around what an entry holds is around the root of the scan, or the entry holds it too. -/
theorem Scanned.around_or_held (h : job.Scanned names)
    (hspelled : ∀ r ∈ set.roots, ∃ names, r = .ofLocation names) (hmarked : set.Marked job.place)
    (hmem : job.root ∈ set.roots) {other p : Path} (hother : other ∈ set.roots)
    (hp : p.startsWith (job.path names)) (haround : p.startsWith other) :
    job.root.startsWith other ∨ other.startsWith (job.path names) := by
  rw [Path.startsWith_iff] at hp haround
  rcases List.prefix_or_prefix_of_prefix haround hp with habove | hbelow
  · rcases RepositorySet.startsWith_or_exists_descend hspelled hmem hother
      (Path.startsWith_iff.mpr habove) with hroot | ⟨part, hne, hpart, rfl⟩
    · exact .inl hroot
    · -- Nothing on the way to the entry holds something named `.git`, as a root does.
      exact absurd (hmarked _ hother) (Bool.eq_false_iff.mp (h.bare part hne hpart))
  · exact .inr (Path.startsWith_iff.mpr hbelow)

/-- In a tree without links a topmost entry holds what is at or below it. -/
theorem Topmost.holds_iff (h : job.Topmost names) (hfree : job.place.files.top.linkFree)
    (hroot : job.root = .ofLocation job.location) {file : Location} :
    job.place.holds (job.path names) file ↔
      job.place.exists? (job.path names) ∧ (Path.ofLocation file).startsWith (job.path names) := by
  obtain ⟨e, he⟩ := Records.exists_entry (.inl h) hroot
  rw [path, hroot, Path.descend_ofLocation, Place.holds_ofLocation_iff hfree he,
    Path.startsWith_ofLocation_iff]

/-- Two topmost entries that hold the same path are one. -/
theorem Topmost.eq_of_startsWith {others : List Name} {p : Path} (h : job.Topmost names)
    (h' : job.Topmost others) (hroot : job.root.isAbsolute) (hp : p.startsWith (job.path names))
    (hp' : p.startsWith (job.path others)) : names = others := by
  rw [Path.startsWith_iff] at hp hp'
  rcases List.prefix_or_prefix_of_prefix hp hp' with habove | hbelow
  · have hprefix := (Path.components_descend_prefix hroot).mp habove
    exact Records.eq_of_prefix (.inl h) (.inl h') hprefix
  · have hprefix := (Path.components_descend_prefix hroot).mp hbelow
    exact (Records.eq_of_prefix (.inl h') (.inl h) hprefix).symm

end Scan.Job

namespace Workspace

variable {set : RepositorySet} {settings : TrackerSettings} {workspace : Workspace} {place : Place}
  {r inner : Repository} {f : Location} {content : Content}

/-- The entries of a repository that are not left out of the numbers. -/
def counted (workspace : Workspace) (place : Place) (r : Repository) : List IgnoredEntry :=
  Measure.counted uncounted (workspace.holder.valuesFor (Tracker.tracking place) r)

/-- The files that these entries hold. -/
def countedFiles (workspace : Workspace) (place : Place) (r : Repository) :
    List (Location × Content) :=
  Measure.heldFiles place (workspace.counted place r)

/-- An entry of the repository holds the root of the other one. -/
def Swallows (workspace : Workspace) (place : Place) (r inner : Repository) : Prop :=
  ∃ entry ∈ workspace.counted place r, inner.root.startsWith entry.path

/-- How a workspace is after a round of scans: what a repository lists is what a scan of its root has
recorded. -/
structure Fresh (workspace : Workspace) (set : RepositorySet) (settings : TrackerSettings)
    (place : Place) : Prop extends workspace.Fits set settings where
  spelled : ∀ r ∈ set.roots, ∃ names, r = .ofLocation names
  marked : set.Marked place
  contained : workspace.holder.Each fun _ t => t.Contained
  listed : ∀ r ∈ set.repositories, ∃ job : Scan.Job, job.place = place ∧ job.root = r.root ∧
    job.root = .ofLocation job.location ∧
    ∀ entry ∈ workspace.holder.valuesFor (Tracker.tracking place) r,
      r ∈ workspace.holder.repositories ∧ ∃ names, job.Records names ∧ entry.path = job.path names

theorem fresh_rescan {opened : Settings} {starts : List Path}
    (hopen : openAt place opened starts = .ok workspace)
    (hlinks : opened.discovery.followLinks = false) (run : List (Place × Request))
    (react : Update.Reactions) :
    ((workspace.after run).perform place (.rescan react)).Fresh
      (Discovery.discover place opened.discovery starts) opened.tracker place where
  toFits := ((fits_of_openAt hopen).after run).perform place (.rescan react)
  spelled _ := Discovery.exists_path_of_mem_roots
  marked := Discovery.marked_discover
  contained := by
    have hafter := each_contained_of_openAt hopen (run ++ [(place, .rescan react)])
    rwa [after_append] at hafter
  listed _ := exists_job_of_rescan ((fits_of_openAt hopen).after run) hlinks react

namespace Fresh

/-- The entries of a repository are counted but for its `.git`. -/
theorem mem_counted_iff (h : workspace.Fresh set settings place) (hr : r ∈ set.repositories)
    {entry : IgnoredEntry} :
    entry ∈ workspace.counted place r ↔
      entry ∈ workspace.holder.valuesFor (Tracker.tracking place) r ∧
        entry.path ≠ r.root.child .git := by
  obtain ⟨job, -, hroot, hlocation, hlisted⟩ := h.listed r hr
  have habsolute : job.root.isAbsolute := hlocation ▸ Path.isAbsolute_ofLocation _
  rw [counted, Measure.counted, List.mem_filter, Bool.not_eq_true', ← Bool.not_eq_true]
  refine and_congr_right fun hentry => not_congr ?_
  obtain ⟨-, names, hnames, hpath⟩ := hlisted entry hentry
  have hgit : r.root.child .git = job.path [.git] := by
    rw [← hroot]
    rfl
  rw [hpath, hgit, Scan.Job.isExcluded_path_iff habsolute hnames]
  constructor
  · rintro rfl
    rfl
  · intro hsame
    exact (Path.components_descend_inj habsolute).mp (congrArg Path.components hsame)

/-- What is counted are the topmost ignored entries of a scan. -/
theorem exists_topmost (h : workspace.Fresh set settings place) (hr : r ∈ set.repositories) :
    ∃ job : Scan.Job, job.place = place ∧ job.root = r.root ∧ job.root = .ofLocation job.location ∧
      ∀ entry ∈ workspace.counted place r, r ∈ workspace.holder.repositories ∧
        ∃ names, job.Topmost names ∧ entry.path = job.path names := by
  obtain ⟨job, hplace, hroot, hlocation, hlisted⟩ := h.listed r hr
  refine ⟨job, hplace, hroot, hlocation, ?_⟩
  intro entry hentry
  obtain ⟨hvalue, hgit⟩ := (h.mem_counted_iff hr).mp hentry
  obtain ⟨hthere, names, hnames, hpath⟩ := hlisted entry hvalue
  refine ⟨hthere, names, ?_, hpath⟩
  rcases hnames with htop | ⟨rfl, -⟩
  · exact htop
  · rw [hpath, ← hroot] at hgit
    exact absurd rfl hgit

/-- Counted are the files that are at an entry or below it, if the path of the entry leads there. -/
theorem mem_countedFiles_iff (h : workspace.Fresh set settings place)
    (hfree : place.files.top.linkFree) (hr : r ∈ set.repositories) :
    (f, content) ∈ workspace.countedFiles place r ↔
      place.files.entry? f = some (.file content) ∧ ∃ entry ∈ workspace.counted place r,
        place.exists? entry.path ∧ (Path.ofLocation f).startsWith entry.path := by
  obtain ⟨job, rfl, hroot, hlocation, htopmost⟩ := h.exists_topmost hr
  rw [countedFiles, Measure.heldFiles, List.mem_filter, FileSystem.mem_allFiles_iff, List.any_eq_true]
  refine and_congr_right fun _ => exists_congr fun entry => and_congr_right fun hentry => ?_
  obtain ⟨-, names, htop, hpath⟩ := htopmost entry hentry
  rw [hpath, htop.holds_iff hfree hlocation]

/-- A counted file belongs to its repository, or to one that an entry holds. -/
theorem exists_deepest_of_mem_countedFiles (h : workspace.Fresh set settings place)
    (hfree : place.files.top.linkFree) (hr : r ∈ set.repositories)
    (hf : (f, content) ∈ workspace.countedFiles place r) :
    ∃ inner ∈ set.repositories,
      RepositorySet.deepest? set.roots (.ofLocation f) = some inner.root ∧
        (inner = r ∨ workspace.Swallows place r inner) := by
  obtain ⟨-, entry, hentry, -, hheld⟩ := (h.mem_countedFiles_iff hfree hr).mp hf
  obtain ⟨job, rfl, hroot, hlocation, htopmost⟩ := h.exists_topmost hr
  obtain ⟨-, names, htop, hpath⟩ := htopmost entry hentry
  have hmem : job.root ∈ set.roots := hroot ▸ List.mem_map_of_mem hr
  have hbelow : entry.path.startsWith job.root := by
    rw [hpath, Path.startsWith_iff]
    exact Path.prefix_components_descend (hlocation ▸ Path.isAbsolute_ofLocation _) names
  obtain ⟨root, hdeepest⟩ :=
    RepositorySet.exists_deepest?_eq_some hmem (Path.startsWith_trans hheld hbelow)
  obtain ⟨hroots, haround, hdeep⟩ := RepositorySet.deepest?_eq_some_iff.mp hdeepest
  obtain ⟨inner, hinner, rfl⟩ := List.mem_map.mp hroots
  refine ⟨inner, hinner, hdeepest, ?_⟩
  rcases htop.scanned.around_or_held h.spelled h.marked hmem hroots (hpath ▸ hheld) haround with
    habove | hunder
  · -- The deepest root is around the root of the repository, and that one around it.
    have hback := hdeep _ hmem (Path.startsWith_trans hheld hbelow)
    rw [hroot] at habove hback
    exact .inl (RepositorySet.eq_of_components_eq hinner hr
      (Path.components_eq_of_startsWith hback habove))
  · exact .inr ⟨entry, hentry, hpath ▸ hunder⟩

/-- So a file whose path leads to it is counted when it is at an entry or below it. -/
theorem mem_countedFiles_iff_of_exists (h : workspace.Fresh set settings place)
    (hfree : place.files.top.linkFree) (hr : r ∈ set.repositories)
    (hfile : place.files.entry? f = some (.file content)) (hexists : place.exists? (.ofLocation f)) :
    (f, content) ∈ workspace.countedFiles place r ↔
      ∃ entry ∈ workspace.counted place r, (Path.ofLocation f).startsWith entry.path := by
  rw [h.mem_countedFiles_iff hfree hr, and_iff_right hfile]
  refine exists_congr fun entry => and_congr_right fun hentry => and_iff_right_of_imp ?_
  intro hheld
  obtain ⟨job, -, -, hlocation, htopmost⟩ := h.exists_topmost hr
  obtain ⟨-, names, -, hpath⟩ := htopmost entry hentry
  rw [Scan.Job.path, hlocation, Path.descend_ofLocation] at hpath
  rw [hpath, Path.startsWith_ofLocation_iff] at hheld
  obtain ⟨below, rfl⟩ := hheld
  obtain ⟨found, hfound⟩ := Place.exists?_iff.mp hexists
  obtain ⟨above, habove, -⟩ := FileSystem.exists_resolve_of_append hfound
  rw [hpath, Place.exists?_iff]
  exact ⟨above, habove⟩

/-- No counted entry holds the `.git` of the root. -/
theorem not_startsWith_of_mem_counted (h : workspace.Fresh set settings place)
    (hr : r ∈ set.repositories) {entry : IgnoredEntry} (hentry : entry ∈ workspace.counted place r) :
    ¬(r.root.child .git).startsWith entry.path := by
  obtain ⟨job, -, hroot, hlocation, htopmost⟩ := h.exists_topmost hr
  obtain ⟨-, names, htop, hpath⟩ := htopmost entry hentry
  have habsolute : job.root.isAbsolute := hlocation ▸ Path.isAbsolute_ofLocation _
  intro hheld
  rw [← hroot, hpath, Path.startsWith_iff] at hheld
  have hprefix : names <+: [.git] := (Path.components_descend_prefix habsolute).mp hheld
  rcases List.prefix_cons_iff.mp hprefix with rfl | ⟨rest, rfl, -⟩
  · exact htop.scanned.below rfl
  · exact htop.scanned.unnamed List.mem_cons_self

/-- What is at or below the `.git` of the root, and not inside a directory of that name, is it. -/
theorem eq_child_git_of_startsWith (h : workspace.Fresh set settings place)
    (hr : r ∈ set.repositories) (hgit : Name.git ∉ f.dropLast)
    (hf : (Path.ofLocation f).startsWith (r.root.child .git)) :
    Path.ofLocation f = r.root.child .git := by
  obtain ⟨top, htop⟩ := h.spelled r.root (List.mem_map_of_mem hr)
  rw [htop, Path.child_ofLocation] at hf ⊢
  obtain ⟨below, rfl⟩ := Path.startsWith_ofLocation_iff.mp hf
  rcases List.eq_nil_or_concat' below with rfl | ⟨front, last, rfl⟩
  · rw [List.append_nil]
  · rw [← List.append_assoc, List.dropLast_concat] at hgit
    exact absurd (by simp) hgit

/-- Where something is counted every repository has its tracker. -/
theorem repositories_of_mem_counted (h : workspace.Fresh set settings place)
    (hr : r ∈ set.repositories) {entry : IgnoredEntry} (hentry : entry ∈ workspace.counted place r) :
    workspace.holder.repositories = set.repositories := by
  refine h.registered.resolve_right ?_
  intro hnone
  obtain ⟨job, -, -, -, htopmost⟩ := h.exists_topmost hr
  have hthere := (htopmost entry hentry).1
  rw [Holder.repositories, hnone] at hthere
  exact absurd hthere List.not_mem_nil

/-- A file that is not inside a directory `.git` is counted by its repository when it is ignored, the
file `.git` of the root apart, and by every other one that has an entry around its repository. -/
theorem mem_countedFiles_iff_owner (h : workspace.Fresh set settings place)
    (hfree : place.files.top.linkFree) (hr : r ∈ set.repositories)
    (hfile : place.files.entry? f = some (.file content)) (hexists : place.exists? (.ofLocation f))
    (hgit : Name.git ∉ f.dropLast) {file : Path} (hnormal : place.normalize file = .ofLocation f) :
    (f, content) ∈ workspace.countedFiles place r ↔
      workspace.ownerOf? place file = some r ∧ workspace.ignores place file ∧
          Path.ofLocation f ≠ r.root.child .git ∨
        ∃ inner, workspace.ownerOf? place file = some inner ∧ workspace.Swallows place r inner := by
  have hreal : place.files.Real f := ⟨_, hfile, rfl⟩
  have howner {other : Repository} : workspace.ownerOf? place file = some other ↔
      other ∈ workspace.holder.repositories ∧
        RepositorySet.deepest? set.roots (.ofLocation f) = some other.root := by
    rw [h.ownerOf?_eq_some_iff, RepositorySet.rootOf?_of_real hreal hnormal]
  have hignores : workspace.ignores place file ↔ _ := h.ignores_iff h.spelled h.contained
  rw [RepositorySet.rootOf?_of_real hreal hnormal, hnormal] at hignores
  have hcounted := h.mem_countedFiles_iff_of_exists hfree hr hfile hexists
  constructor
  · intro hf
    obtain ⟨entry, hentry, hheld⟩ := hcounted.mp hf
    obtain ⟨inner, hinner, hdeepest, hwhose⟩ := h.exists_deepest_of_mem_countedFiles hfree hr hf
    have hall := h.repositories_of_mem_counted hr hentry
    have hown := howner.mpr ⟨hall ▸ hinner, hdeepest⟩
    rcases hwhose with rfl | hswallows
    · have hvalue := ((h.mem_counted_iff hr).mp hentry).1
      refine .inl ⟨hown, hignores.mpr ⟨inner, hall ▸ hr, hdeepest, entry, hvalue, hheld⟩, ?_⟩
      intro hsame
      rw [hsame] at hheld
      exact h.not_startsWith_of_mem_counted hr hentry hheld
    · exact .inr ⟨inner, hown, hswallows⟩
  · rintro (⟨hown, hignored, hother⟩ | ⟨inner, hown, entry, hentry, hinside⟩)
    · obtain ⟨other, hthere, hdeepest, entry, hvalue, hheld⟩ := hignores.mp hignored
      obtain ⟨e, he, rfl⟩ := List.mem_map.mp hthere
      have hsame : e.1.root = r.root :=
        Option.some.inj (hdeepest.symm.trans (howner.mp hown).2)
      obtain rfl : e.1 = r :=
        RepositorySet.eq_of_components_eq (h.mem_repositories he) hr (congrArg Path.components hsame)
      refine hcounted.mpr ⟨entry, (h.mem_counted_iff hr).mpr ⟨hvalue, ?_⟩, hheld⟩
      intro hself
      rw [hself] at hheld
      exact hother (h.eq_child_git_of_startsWith hr hgit hheld)
    · obtain ⟨-, haround, -⟩ := RepositorySet.deepest?_eq_some_iff.mp (howner.mp hown).2
      exact hcounted.mpr ⟨entry, hentry, Path.startsWith_trans haround hinside⟩

/-- No two counted entries hold the same file. -/
theorem pairwise_counted (h : workspace.Fresh set settings place)
    (hfree : place.files.top.linkFree) (hr : r ∈ set.repositories) :
    (workspace.counted place r).Pairwise fun a b =>
      ∀ file, place.holds a.path file → ¬place.holds b.path file := by
  obtain ⟨job, rfl, -, hlocation, htopmost⟩ := h.exists_topmost hr
  have hapart : (workspace.counted job.place r).Pairwise fun a b =>
      a.path.components ≠ b.path.components :=
    (List.pairwise_map.mp (h.nodup_valuesFor hr)).sublist List.filter_sublist
  have habsolute : job.root.isAbsolute := hlocation ▸ Path.isAbsolute_ofLocation _
  refine hapart.imp_of_mem ?_
  intro a b ha hb hne file hholds hholds'
  obtain ⟨-, names, htop, hpath⟩ := htopmost a ha
  obtain ⟨-, others, htop', hpath'⟩ := htopmost b hb
  rw [hpath, htop.holds_iff hfree hlocation] at hholds
  rw [hpath', htop'.holds_iff hfree hlocation] at hholds'
  refine hne ?_
  rw [hpath, hpath', htop.eq_of_startsWith htop' habsolute hholds.2 hholds'.2]

/-- The numbers of a repository are those of the files that it counts. -/
theorem stats_eq (h : workspace.Fresh set settings place) (hfree : place.files.top.linkFree) :
    workspace.stats place = set.repositories.map fun r =>
      ⟨r.root, (workspace.counted place r).length, (workspace.countedFiles place r).length,
        ((workspace.countedFiles place r).map fun f => f.2.size).sum % values64⟩ := by
  rw [stats, Measure.statsOfEach, entriesOf, List.map_map, List.map_map, h.repositories]
  refine List.map_congr_left fun r hr => ?_
  exact Measure.stats_eq r.root (h.pairwise_counted hfree hr)

/-- Where no repository has an entry around another one, no file is counted twice. -/
theorem nodup_countedFiles (h : workspace.Fresh set settings place)
    (hfree : place.files.top.linkFree)
    (hnone : ∀ r ∈ set.repositories, ∀ inner ∈ set.repositories, ¬workspace.Swallows place r inner) :
    (set.repositories.flatMap (workspace.countedFiles place)).Nodup := by
  rw [List.nodup_flatMap]
  constructor
  · intro r _
    exact (FileSystem.nodup_allFiles _).filter _
  · have hapart : set.repositories.Pairwise fun a b => a.root.components ≠ b.root.components := by
      have hnodup := set.nodup_components
      rw [RepositorySet.roots, List.map_map] at hnodup
      exact List.pairwise_map.mp hnodup
    refine hapart.imp_of_mem ?_
    rintro a b ha hb hne ⟨f, content⟩ hfa hfb
    obtain ⟨inner, hinner, hdeepest, hwhose⟩ := h.exists_deepest_of_mem_countedFiles hfree ha hfa
    obtain ⟨other, hother, hdeepest', hwhose'⟩ := h.exists_deepest_of_mem_countedFiles hfree hb hfb
    obtain rfl := hwhose.resolve_right (hnone a ha inner hinner)
    obtain rfl := hwhose'.resolve_right (hnone b hb other hother)
    rw [hdeepest, Option.some_inj] at hdeepest'
    exact hne (congrArg Path.components hdeepest')

end Fresh

/-- **What is counted.** In a workspace that was opened without following links over a tree without
links, and after any run, a round of scans is done. Then the numbers of a repository are those of the
files that its entries hold, each once, the entry `.git` apart. A file that is not inside a directory
`.git` is counted by the repository that it is resolved to when it is ignored, unless it is the `.git`
of its root, and by every other repository that has an entry around the root of that one. Where there is
no such repository no file is counted twice. -/
theorem stats_after_rescan {opened : Settings} {starts : List Path}
    (hopen : openAt place opened starts = .ok workspace)
    (hlinks : opened.discovery.followLinks = false) (hfree : place.files.top.linkFree)
    (run : List (Place × Request)) (react : Update.Reactions) :
    let now := (workspace.after run).perform place (.rescan react)
    let repositories := now.repositories.repositories
    (now.stats place = repositories.map fun r =>
      ⟨r.root, (now.counted place r).length, (now.countedFiles place r).length,
        ((now.countedFiles place r).map fun f => f.2.size).sum % values64⟩) ∧
      (∀ r ∈ repositories, ∀ location content,
        place.files.entry? location = some (.file content) → place.exists? (.ofLocation location) →
          Name.git ∉ location.dropLast → ∀ file, place.normalize file = .ofLocation location →
            ((location, content) ∈ now.countedFiles place r ↔
              now.ownerOf? place file = some r ∧ now.ignores place file ∧
                  Path.ofLocation location ≠ r.root.child .git ∨
                ∃ inner, now.ownerOf? place file = some inner ∧ now.Swallows place r inner)) ∧
      ((∀ r ∈ repositories, ∀ inner ∈ repositories, ¬now.Swallows place r inner) →
        (repositories.flatMap (now.countedFiles place)).Nodup) := by
  intro now repositories
  have hfresh := fresh_rescan hopen hlinks run react
  have hset : repositories =
      (Discovery.discover place opened.discovery starts).repositories :=
    congrArg RepositorySet.repositories hfresh.repositories
  rw [hset]
  refine ⟨hfresh.stats_eq hfree, ?_, hfresh.nodup_countedFiles hfree⟩
  intro r hr location content hfile hexists hgit file hnormal
  exact hfresh.mem_countedFiles_iff_owner hfree hr hfile hexists hgit hnormal

/-- A repository `/u/base` that ignores its directory `deps`, with another one, `/u/base/deps/mod`, in
it. The git directory of the inner one is inside that of the outer one. -/
def submodulePlace : Place where
  files :=
    { top := .dir (.spell "u")
        (.dir (.spell "base")
          (.dir .git (.dir (.spell "modules") (.dir (.spell "mod") gitListing .empty) gitListing) <|
            .file .gitignore (.literal (Utf8.encode "deps")) <|
              .dir (.spell "deps")
                (.dir (.spell "mod")
                  (.file .git (.literal (Utf8.encode "gitdir: ../../.git/modules/mod")) <|
                    .file (.spell "item") (.literal (Utf8.encode "12345")) .empty) .empty) .empty)
          .empty) .empty
      distinct := by decide +kernel }
  cwd := []
  home := .ofString "/home"

def itemLocation : Location := [.spell "u", .spell "base", .spell "deps", .spell "mod", .spell "item"]

def itemContent : Content := .literal (Utf8.encode "12345")

def outerRepository : Repository := .ofRoot (.ofString "/u/base")

def innerRepository : Repository := .ofRoot (.ofString "/u/base/deps/mod")

def submoduleSet : RepositorySet where
  repositories := [outerRepository, innerRepository]
  sorted := by decide +kernel

theorem discover_submodulePlace :
    Discovery.discover submodulePlace loopingSettings.discovery [.ofString "/u"] = submoduleSet :=
  Discovery.discover_eq (by decide +kernel)

/-- The outer repository has an entry around the inner one. There the file is, and is not ignored. -/
theorem swallows_in_submodulePlace :
    ∃ workspace, openAt submodulePlace loopingSettings [.ofString "/u"] = .ok workspace ∧
      let now := workspace.perform submodulePlace (.rescan fun _ _ => {})
      now.Swallows submodulePlace outerRepository innerRepository ∧
        now.ownerOf? submodulePlace (.ofLocation itemLocation) = some innerRepository ∧
        now.ignores submodulePlace (.ofLocation itemLocation) = false := by
  have hscan : (ofRepositories submodulePlace loopingSettings.tracker submoduleSet).toOption.any
      fun workspace =>
        let now := workspace.perform submodulePlace (.rescan fun _ _ => {})
        now.ownerOf? submodulePlace (.ofLocation itemLocation) == some innerRepository &&
          !now.ignores submodulePlace (.ofLocation itemLocation) &&
          now.holder.registry.entries.any fun e => e.1 == outerRepository &&
            (now.holder.tracker? e.2).any fun t =>
              t.recorded.paths.contains (.ofString "/u/base/deps") := by
    decide +kernel
  obtain ⟨workspace, hopen⟩ := exists_openAt submodulePlace loopingSettings [.ofString "/u"]
  refine ⟨workspace, hopen, ?_⟩
  rw [openAt, discover_submodulePlace] at hopen
  rw [hopen] at hscan
  simp only [Except.toOption, Option.any_some, Bool.and_eq_true, beq_iff_eq, Bool.not_eq_true',
    List.any_eq_true, Option.any_eq_true, List.contains_iff_mem] at hscan
  obtain ⟨⟨howner, hignores⟩, e, he, hrepository, t, ht, hdeps⟩ := hscan
  refine ⟨⟨.ofPath submodulePlace (.ofString "/u/base/deps"), ?_, by decide +kernel⟩, howner, hignores⟩
  refine List.mem_filter.mpr ⟨?_, by decide +kernel⟩
  rw [← hrepository, valuesFor_eq he ht]
  exact Tracker.mem_ignoredEntries.mpr ⟨_, hdeps, rfl⟩

/-- So it is counted by the outer one. -/
theorem stats_after_rescan_submodulePlace :
    ∃ workspace, openAt submodulePlace loopingSettings [.ofString "/u"] = .ok workspace ∧
      loopingSettings.discovery.followLinks = false ∧ submodulePlace.files.top.linkFree ∧
      let now := workspace.perform submodulePlace (.rescan fun _ _ => {})
      (itemLocation, itemContent) ∈ now.countedFiles submodulePlace outerRepository := by
  obtain ⟨workspace, hopen, hswallows, howner, -⟩ := swallows_in_submodulePlace
  have hfree : submodulePlace.files.top.linkFree := by decide +kernel
  obtain ⟨-, hcounted, -⟩ := stats_after_rescan hopen rfl hfree [] (fun _ _ => {})
  refine ⟨workspace, hopen, rfl, hfree, ?_⟩
  refine (hcounted outerRepository ?_ itemLocation itemContent ?_ ?_ ?_ (.ofLocation itemLocation)
    ?_).mpr (.inr ⟨innerRepository, howner, hswallows⟩)
  · change _ ∈ (workspace.perform submodulePlace (.rescan fun _ _ => {})).repositories.repositories
    rw [((fits_of_openAt hopen).perform submodulePlace (.rescan fun _ _ => {})).repositories,
      discover_submodulePlace]
    exact List.mem_cons_self
  · rfl
  · decide +kernel
  · decide +kernel
  · decide +kernel

/-- Although it is not ignored. -/
theorem counted_unignored_in_submodulePlace :
    ∃ workspace, openAt submodulePlace loopingSettings [.ofString "/u"] = .ok workspace ∧
      loopingSettings.discovery.followLinks = false ∧ submodulePlace.files.top.linkFree ∧
      let now := workspace.perform submodulePlace (.rescan fun _ _ => {})
      submodulePlace.files.entry? itemLocation = some (.file itemContent) ∧
        Name.git ∉ itemLocation.dropLast ∧
        now.ignores submodulePlace (.ofLocation itemLocation) = false ∧
        (itemLocation, itemContent) ∈ now.countedFiles submodulePlace outerRepository ∧
        ∃ row ∈ now.stats submodulePlace, row.root = outerRepository.root ∧
          row.files = (now.countedFiles submodulePlace outerRepository).length := by
  obtain ⟨workspace, hopen, hswallows, howner, hignores⟩ := swallows_in_submodulePlace
  have hfree : submodulePlace.files.top.linkFree := by decide +kernel
  have hfresh := fresh_rescan hopen rfl [] fun _ _ => {}
  rw [discover_submodulePlace] at hfresh
  have hmem : outerRepository ∈ submoduleSet.repositories := List.mem_cons_self
  obtain ⟨entry, hentry, hheld⟩ := hswallows
  refine ⟨workspace, hopen, rfl, hfree, rfl, by decide +kernel, hignores, ?_, ?_⟩
  · have hinside : (Path.ofLocation itemLocation).startsWith innerRepository.root := by decide +kernel
    exact (hfresh.mem_countedFiles_iff_of_exists hfree hmem rfl (by decide +kernel)).mpr
      ⟨entry, hentry, Path.startsWith_trans hinside hheld⟩
  · refine ⟨_, (hfresh.stats_eq hfree).symm ▸ List.mem_map_of_mem hmem, rfl, rfl⟩

end Workspace

end IgnoreAtlas
