import IgnoreAtlas.Proofs.Discovery.Search
import IgnoreAtlas.Proofs.Path.Normal
import IgnoreAtlas.Proofs.Tracker.Record
import IgnoreAtlas.Proofs.Workspace.Run
import Mathlib.Algebra.GroupWithZero.Nat
import Mathlib.Data.List.Perm.Basic

/-!
# Whose record a path is in

Two mechanisms draw the borders between repositories. A scan stops at what holds something named
`.git`; adding a file asks for the deepest root around it. They draw the same borders: a scan records
what is its own (`owns_of_mem_recorded`), and so does adding a file, as long as the file is routed by
the spelling that is recorded.

That is not always so. A file is spelled normally before it is routed, and the routing spells it
normally once more; where the two differ, the path can be recorded by the repository of the second
spelling although the first one is what is recorded. `Misroutes` says exactly when that happens, and
`owned_after_iff` that nothing else goes wrong in any run.
-/

namespace IgnoreAtlas

/-- The root is the deepest one around the path, and not the path itself. -/
structure RepositorySet.Owns (set : RepositorySet) (root p : Path) : Prop where
  around : p.startsWith root
  below : ¬p.same root
  deepest : ∀ r ∈ set.roots, p.startsWith r → root.startsWith r

namespace RepositorySet

variable {set : RepositorySet} {root p q : Path}

/-- Whose a path is does not depend on its spelling. -/
theorem Owns.congr (h : set.Owns root p) (hsame : p.components = q.components) :
    set.Owns root q := by
  obtain ⟨haround, hbelow, hdeepest⟩ := h
  simp only [Path.startsWith_iff, Path.same_iff, hsame] at haround hbelow hdeepest
  exact ⟨Path.startsWith_iff.mpr haround, fun h => hbelow (Path.same_iff.mp h),
    fun r hr hq => Path.startsWith_iff.mpr (hdeepest r hr (Path.startsWith_iff.mp hq))⟩

/-- A path has one owner. -/
theorem Owns.unique {other : Path} (h : set.Owns root p) (h' : set.Owns other p)
    (hroot : root ∈ set.roots) (hother : other ∈ set.roots) : root.components = other.components :=
  Path.components_eq_of_startsWith (h.deepest other hother h'.around)
    (h'.deepest root hroot h.around)

end RepositorySet

namespace Tracker

variable {set : RepositorySet} {tracker : Tracker} {p : Path}

/-- Everything recorded is the root's own. -/
def Owned (set : RepositorySet) (root : Path) (tracker : Tracker) : Prop :=
  ∀ p ∈ tracker.recorded.paths, set.Owns root p

/-- Adding an absolute path leaves a record owned when the path is not below the root, or is the
root's own. -/
theorem owned_addFile_iff (h : tracker.Owned set tracker.root) (hp : p.isAbsolute) :
    (tracker.addFile p).Owned set tracker.root ↔
      (p.startsWith tracker.root → ¬p.same tracker.root → set.Owns tracker.root p) := by
  have habsolute : tracker.absolute p = p := if_pos hp
  unfold addFile
  simp only [habsolute]
  by_cases hin : p.startsWith tracker.root && !p.same tracker.root
  · rw [if_pos hin]
    rw [Bool.and_eq_true, Bool.not_eq_true', ← Bool.not_eq_true] at hin
    constructor
    · intro howned _ _
      obtain ⟨q, hq, hsame⟩ := List.mem_map.mp <|
        PathSet.contains_iff.mp (PathSet.contains_insert.mpr (.inl (Eq.refl p.components)))
      exact (howned q hq).congr hsame
    · intro howns q hq
      rcases PathSet.mem_paths_insert hq with hq | rfl
      · exact h q hq
      · exact howns hin.1 hin.2
  · rw [if_neg hin]
    refine ⟨fun _ haround hbelow => absurd ?_ hin, fun _ => h⟩
    rw [Bool.and_eq_true, Bool.not_eq_true', ← Bool.not_eq_true]
    exact ⟨haround, hbelow⟩

end Tracker

/-- Every root of the set is spelled by names from the top and is not named `.git`. -/
structure RepositorySet.Proper (set : RepositorySet) : Prop where
  spelled : ∀ r ∈ set.roots, ∃ names, r = .ofLocation names
  unnamed : ∀ r ∈ set.roots, r.fileName? ≠ some .git

/-- Every root of the set holds something named `.git`. -/
def RepositorySet.Marked (set : RepositorySet) (place : Place) : Prop :=
  ∀ r ∈ set.roots, place.exists? (r.child .git)

/-- The roots of a workspace hold something named `.git` when it is opened. -/
theorem Discovery.marked_discover {place : Place} {settings : DiscoverySettings}
    {starts : List Path} : (discover place settings starts).Marked place := fun _ hr =>
  (Bool.and_eq_true_iff.mp (mem_roots_discover_iff.mp hr).1).1

namespace RepositorySet

variable {set : RepositorySet}

/-- A root around an entry below a root is around that root, or is an entry on the way. -/
theorem startsWith_or_exists_descend (hspelled : ∀ r ∈ set.roots, ∃ names, r = .ofLocation names)
    {root other : Path} (hroot : root ∈ set.roots) (hother : other ∈ set.roots) {names : List Name}
    (haround : (root.descend names).startsWith other) :
    root.startsWith other ∨ ∃ part, part ≠ [] ∧ part <+: names ∧ other = root.descend part := by
  obtain ⟨top, rfl⟩ := hspelled root hroot
  obtain ⟨others, rfl⟩ := hspelled other hother
  have habsolute := Path.isAbsolute_ofLocation top
  simp only [Path.startsWith_iff] at haround ⊢
  rcases List.prefix_or_prefix_of_prefix haround
    (Path.prefix_components_descend habsolute names) with habove | hbelow
  · exact .inl habove
  · obtain ⟨part, hpart, hsame⟩ := Path.exists_components_descend habsolute hbelow haround
    by_cases hnil : part = []
    · exact .inl (by rw [hsame, hnil]; exact List.prefix_rfl)
    · refine .inr ⟨part, hnil, hpart, ?_⟩
      rw [Path.descend_ofLocation] at hsame ⊢
      rw [Path.components_ofLocation_inj.mp hsame]

end RepositorySet

namespace Scan.Job

variable {set : RepositorySet} {job : Job} {p : Path}

/-- Between a root and what a scan of it records there is no other root that is marked, and what is
recorded is one itself only if it is the entry `.git`. -/
theorem eq_git_of_records (hmarked : set.Marked job.place) {names part : List Name}
    (h : job.Records names) (hne : part ≠ []) (hpart : part <+: names)
    (hmem : job.path part ∈ set.roots) : part = [.git] ∧ names = [.git] := by
  rcases h with htop | ⟨rfl, -⟩
  · exact absurd (hmarked _ hmem) (Bool.eq_false_iff.mp (htop.scanned.bare part hne hpart))
  · obtain ⟨n, rest, rfl⟩ := List.exists_cons_of_ne_nil hne
    obtain ⟨rfl, hrest⟩ := List.cons_prefix_cons.mp hpart
    rw [List.prefix_nil.mp hrest]
    exact ⟨rfl, rfl⟩

/-- What a scan records is the root's own, unless it is a root itself. -/
theorem owns_path_iff (hspelled : ∀ r ∈ set.roots, ∃ names, r = .ofLocation names)
    (hmarked : set.Marked job.place) (hmem : job.root ∈ set.roots) {names : List Name}
    (h : job.Records names) :
    set.Owns job.root (job.path names) ↔ job.path names ∉ set.roots := by
  obtain ⟨top, htop⟩ := hspelled _ hmem
  have hroot : job.root.isAbsolute := htop ▸ Path.isAbsolute_ofLocation top
  constructor
  · rintro ⟨haround, hbelow, hdeepest⟩ hself
    have hback := hdeepest _ hself (Path.startsWith_self _)
    exact hbelow (Path.same_iff.mpr (Path.components_eq_of_startsWith haround hback))
  · intro hout
    refine ⟨Path.startsWith_iff.mpr (Path.prefix_components_descend hroot names),
      fun hsame => h.ne_nil ?_, fun r hr haround => ?_⟩
    · exact (Path.components_descend_inj hroot).mp (Path.same_iff.mp hsame)
    · rcases RepositorySet.startsWith_or_exists_descend hspelled hmem hr haround with
        habove | ⟨part, hnil, hpart, rfl⟩
      · exact habove
      · obtain ⟨rfl, rfl⟩ := eq_git_of_records hmarked h hnil hpart hr
        exact absurd hr hout

/-- Where no root is named `.git`, what a scan records is the root's own. -/
theorem owns_of_mem_recorded (hproper : set.Proper) (hmarked : set.Marked job.place)
    (hmem : job.root ∈ set.roots) (hp : p ∈ job.recorded.paths) : set.Owns job.root p := by
  obtain ⟨top, htop⟩ := hproper.spelled _ hmem
  have hroot : job.root.isAbsolute := htop ▸ Path.isAbsolute_ofLocation top
  obtain ⟨names, hrecords, hc⟩ :=
    (contains_recorded hroot).mp (PathSet.contains_iff.mpr (List.mem_map_of_mem hp))
  refine ((owns_path_iff hproper.spelled hmarked hmem hrecords).mpr fun hself => ?_).congr hc.symm
  obtain ⟨-, rfl⟩ := eq_git_of_records hmarked hrecords hrecords.ne_nil List.prefix_rfl hself
  refine hproper.unnamed _ hself ?_
  rw [path, Path.fileName?, Path.components_descend hroot]
  simp

end Scan.Job

namespace Tracker

variable {set : RepositorySet} {tracker : Tracker} {place : Place}

/-- A scan leaves a record owned, whether it succeeds or fails. -/
theorem owned_rescan (hproper : set.Proper) (hmarked : set.Marked place)
    (hmem : tracker.root ∈ set.roots) (h : tracker.Owned set tracker.root) :
    (tracker.rescan place).2.Owned set tracker.root := by
  unfold rescan
  split
  · next recorded hrecord =>
    obtain ⟨job, hjob, rfl⟩ := Scan.exists_job_of_record hrecord
    obtain ⟨rfl, -, hroot⟩ := Scan.Job.of?_eq_some hjob
    intro p hp
    rw [← hroot] at hmem ⊢
    exact Scan.Job.owns_of_mem_recorded hproper hmarked hmem hp
  · exact h

end Tracker

namespace Workspace

variable {set : RepositorySet} {settings : TrackerSettings} {workspace : Workspace} {place : Place}

/-- Everything that is recorded is its repository's own. -/
def Owned (workspace : Workspace) : Prop :=
  workspace.holder.Each fun r t => t.Owned workspace.repositories r.root

/-- Adding the file puts it into the record of a repository although a deeper root is around it. -/
def Misroutes (workspace : Workspace) (place : Place) (file : Path) : Prop :=
  ∃ r ∈ workspace.holder.repositories,
    workspace.repositories.rootOf? place (place.normalize file) = some r.root ∧
      (place.normalize file).startsWith r.root ∧ ¬(place.normalize file).same r.root ∧
      ∃ deeper ∈ workspace.repositories.roots,
        (place.normalize file).startsWith deeper ∧ ¬r.root.startsWith deeper

/-! ## Step by step -/

/-- A file is routed to a root as an absolute path. -/
theorem isAbsolute_of_rootOf? (hspelled : ∀ r ∈ set.roots, ∃ names, r = .ofLocation names)
    {file root : Path} (h : set.rootOf? place (place.normalize file) = some root) :
    (place.normalize file).isAbsolute := by
  obtain ⟨hmem, haround, -⟩ := RepositorySet.deepest?_eq_some_iff.mp h
  obtain ⟨names, rfl⟩ := hspelled _ hmem
  exact Place.isAbsolute_of_isAbsolute_normalize <|
    Path.isAbsolute_of_startsWith (Path.isAbsolute_ofLocation names) haround

/-- Adding a file leaves a workspace owned exactly when the file is not misrouted. -/
theorem owned_add_iff (hfits : workspace.Fits set settings) (hproper : set.Proper)
    (h : workspace.Owned) (file : Path) :
    (workspace.perform place (.add file)).Owned ↔ ¬workspace.Misroutes place file := by
  obtain rfl := hfits.repositories
  constructor
  · rintro howned ⟨r, hr, hroot, haround, hbelow, deeper, hdeeper, hin, hnot⟩
    obtain ⟨e, he, rfl⟩ := List.mem_map.mp hr
    rcases hfits.perform_add place file with ⟨e', he', hroot', hperform⟩ | ⟨hnone, -⟩
    · obtain ⟨t, ht, hserves, -⟩ := hfits.serves e' he'
      obtain ⟨t', ht', hnext⟩ := howned e' (by rw [hperform]; exact he')
      have hsame : e'.1.root = e.1.root := Option.some.inj (hroot'.symm.trans hroot)
      rw [hperform, Holder.tracker?_update, if_pos rfl, ht, Option.map_some,
        Option.some.injEq] at ht'
      obtain ⟨t₀, ht₀, hbefore⟩ := h e' he'
      obtain rfl : t = t₀ := Option.some.inj (ht.symm.trans ht₀)
      subst ht'
      rw [← hserves] at hnext hbefore hsame
      rw [← hsame] at haround hbelow hnot
      have howns := (Tracker.owned_addFile_iff hbefore (isAbsolute_of_rootOf? hproper.spelled hroot)).mp
        hnext haround hbelow
      exact hnot (howns.deepest deeper hdeeper hin)
    · exact hnone e he hroot
  · intro hnot
    refine (hfits.each_add h fun e he hroot t hserves ht => ?_).2
    rw [← hserves] at ht ⊢
    refine (Tracker.owned_addFile_iff ht (isAbsolute_of_rootOf? hproper.spelled hroot)).mpr
      fun haround hbelow => ⟨haround, hbelow, fun deeper hdeeper hin => ?_⟩
    by_contra hdeep
    rw [hserves] at haround hbelow hdeep
    exact hnot ⟨e.1, List.mem_map_of_mem he, hroot, haround, hbelow, deeper, hdeeper, hin, hdeep⟩

/-- Every other request leaves a workspace owned, if the roots are marked. -/
theorem owned_perform (hfits : workspace.Fits set settings) (hproper : set.Proper)
    (hmarked : set.Marked place) (h : workspace.Owned) {request : Request}
    (hadd : ∀ file, request = .add file → ¬workspace.Misroutes place file) :
    (workspace.perform place request).Owned := by
  cases request with
  | rescan react =>
    obtain rfl := hfits.repositories
    refine (each_rescan (hfits.serves.and h) place react fun e he t ht => ?_).2.1.imp fun _ _ => And.right
    refine ⟨serves_rescan ht.1, ?_⟩
    have hmem : t.root ∈ workspace.repositories.roots := by
      rw [ht.1.1]
      exact List.mem_map_of_mem (hfits.mem_repositories he)
    have hroot := ht.1.1
    have howned := ht.2
    rw [← hroot] at howned ⊢
    exact Tracker.owned_rescan hproper hmarked hmem howned
  | add file => exact (owned_add_iff hfits hproper h file).mpr (hadd file rfl)
  | check file =>
    rw [perform_check]
    exact h
  | cleanAll => exact Holder.each_cleanAll _ _

/-- A workspace that is opened is owned: nothing is recorded yet. -/
theorem owned_of_openAt {opened : Settings} {starts : List Path}
    (h : openAt place opened starts = .ok workspace) : workspace.Owned := by
  refine (each_openAt h).2.2.imp fun r t ht => ?_
  rw [Tracker.open?_eq_ok ht]
  exact fun _ hp => absurd hp List.not_mem_nil

/-- The roots of a workspace are spelled by names from the top. -/
theorem proper_discover {discovery : DiscoverySettings} {starts : List Path}
    (h : ∀ r ∈ (Discovery.discover place discovery starts).roots, r.fileName? ≠ some .git) :
    (Discovery.discover place discovery starts).Proper :=
  ⟨fun _ hr => Discovery.exists_path_of_mem_roots hr, h⟩

/-! ## Along a run -/

/-- A run goes on in owned states exactly as long as it adds no file that is misrouted. -/
theorem owned_after_iff (hfits : workspace.Fits set settings) (hproper : set.Proper)
    (h : workspace.Owned) {run : List (Place × Request)}
    (hmarked : ∀ step ∈ run, set.Marked step.1) :
    (∀ front back, run = front ++ back → (workspace.after front).Owned) ↔
      ∀ front place file back, run = front ++ (place, .add file) :: back →
        ¬(workspace.after front).Misroutes place file := by
  constructor
  · rintro howned front place file back rfl
    have hnext := howned (front ++ [(place, .add file)]) back (by simp)
    rw [after_append] at hnext
    have hbefore := howned front ((place, .add file) :: back) rfl
    exact (owned_add_iff (hfits.after front) hproper hbefore file).mp hnext
  · intro hroutes front
    induction front using List.reverseRecOn with
    | nil => exact fun _ _ => h
    | append_singleton front step ih =>
      rintro back rfl
      have hbefore := ih (step :: back) (by simp)
      rw [after_append]
      refine owned_perform (hfits.after front) hproper (hmarked step (by simp)) hbefore
        fun file hadd => ?_
      exact hroutes front step.1 file back (by simp [← hadd])

/-! ## What follows for the entries -/

/-- After a round of scans a tracker has the record of a scan, if its root can be scanned. -/
theorem each_recorded_rescan (hfits : workspace.Fits set settings) (place : Place)
    (react : Update.Reactions) :
    (workspace.perform place (.rescan react)).holder.Each fun r t =>
      ∀ job, Scan.Job.of? place settings r.root = some job → t.recorded = job.recorded := by
  refine (each_rescan hfits.serves place react fun _ _ _ => serves_rescan).2.2.imp ?_
  rintro r t ⟨before, ⟨hserves, hsettings⟩, rfl⟩ job hjob
  rw [Tracker.rescan, hserves, hsettings, Scan.record_eq_ok hjob]

/-- The entries of a tracker have the paths that it records. -/
theorem perm_components_entries (tracker : Tracker) (place : Place) :
    ((tracker.ignoredEntries place).map (·.path.components)).Perm
      (tracker.recorded.paths.map Path.components) := by
  have hperm := (List.mergeSort_perm (tracker.recorded.paths.map (IgnoredEntry.ofPath place))
    IgnoredEntry.le).map fun entry => entry.path.components
  rw [List.map_map] at hperm
  exact hperm

/-- All entries have the paths that the trackers record. -/
theorem perm_components_values (workspace : Workspace) (place : Place) :
    ((workspace.holder.values (Tracker.tracking place)).map (·.path.components)).Perm
      (workspace.holder.registered.flatMap fun t => t.recorded.paths.map Path.components) := by
  rw [Holder.values, List.map_flatMap]
  exact List.Perm.flatMap_left _ fun t _ => perm_components_entries t place

/-- The entries of a repository are those of its tracker. -/
theorem valuesFor_eq {e : Repository × Handle} {tracker : Tracker}
    (he : e ∈ workspace.holder.registry.entries)
    (ht : workspace.holder.tracker? e.2 = some tracker) :
    workspace.holder.valuesFor (Tracker.tracking place) e.1 = tracker.ignoredEntries place := by
  have hget : workspace.holder.registry.get? e.1 = some e.2 :=
    Registry.get?_eq_some_iff.mpr ⟨e, he, rfl, rfl⟩
  rw [Holder.valuesFor, hget, Option.bind_some, ht]
  rfl

/-- A repository lists no path twice. -/
theorem Fits.nodup_valuesFor (h : workspace.Fits set settings) {r : Repository}
    (hr : r ∈ set.repositories) :
    ((workspace.holder.valuesFor (Tracker.tracking place) r).map (·.path.components)).Nodup := by
  rcases h.registered with hall | hnone
  · rw [← hall] at hr
    obtain ⟨e, he, rfl⟩ := List.mem_map.mp hr
    obtain ⟨t, ht, -⟩ := h.serves e he
    rw [valuesFor_eq he ht]
    exact (perm_components_entries t place).nodup_iff.mpr t.recorded.distinct
  · rw [Holder.valuesFor, hnone]
    exact List.nodup_nil

/-- All entries are those of one repository after the other. -/
theorem values_eq (hfits : workspace.Fits set settings) (place : Place) :
    workspace.holder.values (Tracker.tracking place) =
      workspace.holder.repositories.flatMap
        (workspace.holder.valuesFor (Tracker.tracking place)) := by
  have hentries : ∀ entries : List (Repository × Handle),
      (∀ e ∈ entries, e ∈ workspace.holder.registry.entries) →
        ((entries.map (·.2)).filterMap workspace.holder.tracker?).flatMap
            (Tracker.ignoredEntries place) =
          (entries.map (·.1)).flatMap (workspace.holder.valuesFor (Tracker.tracking place)) := by
    intro entries
    induction entries with
    | nil => exact fun _ => rfl
    | cons e entries ih =>
      intro hmem
      obtain ⟨t, ht, -⟩ := hfits.serves e (hmem e List.mem_cons_self)
      rw [List.map_cons, List.map_cons, List.filterMap_cons_some ht, List.flatMap_cons,
        List.flatMap_cons, valuesFor_eq (hmem e List.mem_cons_self) ht,
        ih fun e' he' => hmem e' (List.mem_cons_of_mem _ he')]
  exact hentries _ fun _ => id

/-- The lists of a report are together all entries. -/
theorem flatMap_scanReport (hfits : workspace.Fits set settings) (place : Place)
    (summary : ScanSummary) :
    (workspace.scanReport place summary).repositories.flatMap RepositoryReport.ignored =
      workspace.holder.values (Tracker.tracking place) := by
  have hreport : (workspace.scanReport place summary).repositories.flatMap
      RepositoryReport.ignored =
        set.repositories.flatMap (workspace.holder.valuesFor (Tracker.tracking place)) := by
    simp only [scanReport, entriesOf, hfits.repositories, List.flatMap_map]
  rw [hreport, values_eq hfits]
  rcases hfits.registered with hall | hnone
  · rw [hall]
  · have hempty (r : Repository) :
        workspace.holder.valuesFor (Tracker.tracking place) r = [] := by
      rw [Holder.valuesFor, hnone]
      rfl
    rw [Holder.repositories, hnone, List.flatMap_eq_nil_iff.mpr fun r _ => hempty r]
    rfl

/-- In an owned workspace no path is listed twice. -/
theorem nodup_values (hfits : workspace.Fits set settings) (h : workspace.Owned) (place : Place) :
    ((workspace.holder.values (Tracker.tracking place)).map (·.path.components)).Nodup := by
  rw [values_eq hfits, List.map_flatMap, Holder.repositories, Registry.repositories,
    List.flatMap_map, List.nodup_flatMap]
  constructor
  · intro e he
    exact hfits.nodup_valuesFor (hfits.mem_repositories he)
  · have hapart := List.pairwise_map.mp (List.nodup_iff_pairwise_ne.mp
      workspace.holder.registry.distinct)
    refine hapart.imp_of_mem fun {a b} ha hb hne => ?_
    obtain ⟨t, ht, howned⟩ := h a ha
    obtain ⟨t', ht', howned'⟩ := h b hb
    intro c hc hc'
    dsimp only at hc hc'
    rw [valuesFor_eq ha ht, (perm_components_entries t place).mem_iff] at hc
    rw [valuesFor_eq hb ht', (perm_components_entries t' place).mem_iff] at hc'
    obtain ⟨p, hp, rfl⟩ := List.mem_map.mp hc
    obtain ⟨q, hq, hsame⟩ := List.mem_map.mp hc'
    have hmem {e : Repository × Handle} (he : e ∈ workspace.holder.registry.entries) :
        e.1.root ∈ workspace.repositories.roots :=
      List.mem_map_of_mem (hfits.repositories ▸ hfits.mem_repositories he)
    exact hne ((howned p hp).unique ((howned' q hq).congr hsame) (hmem ha) (hmem hb))

/-! ## Borders between repositories -/

/-- A run from the opening on, in places where the roots stay marked, goes through owned states
exactly as long as it adds no file that is misrouted. In an owned state no path is listed twice, and
no two lists of a report have a path in common. In every state the lists of a report are together
all entries, the summary has their number, and, unless all trackers have been let go of, the number
of the lists. -/
theorem owned_along_run_iff {opened : Settings} {starts : List Path} {run : List (Place × Request)}
    (hopen : openAt place opened starts = .ok workspace)
    (hunnamed : ∀ r ∈ workspace.repositories.roots, r.fileName? ≠ some .git)
    (hmarked : ∀ step ∈ run, workspace.repositories.Marked step.1) :
    ((∀ front back, run = front ++ back → (workspace.after front).Owned) ↔
      ∀ front view file back, run = front ++ (view, .add file) :: back →
        ¬(workspace.after front).Misroutes view file) ∧
      ∀ front back, run = front ++ back → ∀ (view : Place) (startedAt : Calendar.Moment)
        (duration : Duration),
        let now := workspace.after front
        let entries := now.holder.values (Tracker.tracking view)
        let summary := now.summary view startedAt duration
        let report := now.scanReport view summary
        (now.Owned →
          (entries.map (·.path.components)).Nodup ∧
            report.repositories.Pairwise fun a b =>
              ∀ x ∈ a.ignored, ∀ y ∈ b.ignored, ¬x.path.same y.path) ∧
          report.repositories.flatMap (·.ignored) = entries ∧
          summary.ignoredEntries = (report.repositories.map (·.ignored.length)).sum ∧
          ((∀ step ∈ front, step.2 ≠ .cleanAll) →
            summary.repositories = report.repositories.length) := by
  have hfits := fits_of_openAt hopen
  have hset := (each_openAt hopen).1
  have hproper := proper_discover (hset ▸ hunnamed)
  refine ⟨owned_after_iff hfits hproper (owned_of_openAt hopen) (hset ▸ hmarked), ?_⟩
  rintro front back - view startedAt duration
  have hnow := hfits.after front
  have hlists := flatMap_scanReport hnow view ((workspace.after front).summary view startedAt duration)
  refine ⟨fun howned => ?_, hlists, ?_, fun hkept => ?_⟩
  · have hnodup := nodup_values hnow howned view
    refine ⟨hnodup, ?_⟩
    rw [← hlists, List.map_flatMap, List.nodup_flatMap] at hnodup
    refine hnodup.2.imp fun {a b} hdisjoint x hx y hy hsame => ?_
    exact hdisjoint (List.mem_map_of_mem hx)
      (List.mem_map.mpr ⟨y, hy, (Path.same_iff.mp hsame).symm⟩)
  · rw [← List.length_flatMap, hlists]
    rfl
  · have hlength : (workspace.after front).holder.repositories.length =
        (workspace.after front).repositories.repositories.length := by
      rw [Holder.repositories, registry_after hfits hkept, hnow.repositories, ← hset]
      exact congrArg List.length (each_openAt hopen).2.1
    rw [summary, hlength, scanReport, entriesOf]
    simp

/-! ## A path that is recorded twice -/

/-- A git directory. -/
def gitListing : Listing :=
  .file (.spell "HEAD") (.literal []) <| .dir (.spell "objects") .empty <|
    .dir (.spell "refs") .empty .empty

/-- A repository `/w/a` with another one, `/w/a/s`, inside. In the inner one the link `d` leads to
the directory that holds it, and the link `l`, which is ignored, ten times through `d` and then out
to `/w/a/x`. -/
def loopingPlace : Place where
  files :=
    { top := .dir (.spell "w")
        (.dir (.spell "a")
          (.dir .git gitListing <| .file (.spell "x") (.literal []) <|
            .dir (.spell "s")
              (.dir .git gitListing <| .link (.spell "d") (.ofString ".") <|
                .link (.spell "l") (.ofString "d/d/d/d/d/d/d/d/d/d/../x") <|
                  .file .gitignore (.literal (Utf8.encode "l")) .empty) .empty) .empty) .empty
      distinct := by decide +kernel }
  cwd := []
  home := .ofString "/home"

/-- Settings that leave the entry `.git` of a root alone. -/
def loopingSettings : Settings :=
  { workspacePaths := [], tracker := { includeGitDir := false } }

/-- The link `l`, after going thirty-five times through `d`: too many links to follow. -/
def loopingFile : Path :=
  (Path.ofString "/w/a/s").descend (List.replicate 35 (.spell "d") ++ [.spell "l"])

/-- The repositories that are found. -/
def loopingSet : RepositorySet where
  repositories := [.ofRoot (.ofString "/w/a"), .ofRoot (.ofString "/w/a/s")]
  sorted := by decide +kernel

theorem discover_loopingPlace :
    Discovery.discover loopingPlace loopingSettings.discovery [.ofString "/w"] = loopingSet :=
  Discovery.discover_eq (by decide +kernel)

theorem proper_loopingSet : ∀ r ∈ loopingSet.roots, r.fileName? ≠ some .git := by decide +kernel

theorem marked_loopingSet : loopingSet.Marked loopingPlace := by
  unfold RepositorySet.Marked
  decide +kernel

/-- A scan alone leaves the workspace owned. -/
theorem owned_along_run_iff_loopingPlace :
    ∃ workspace, openAt loopingPlace loopingSettings [.ofString "/w"] = .ok workspace ∧
      (∀ r ∈ workspace.repositories.roots, r.fileName? ≠ some .git) ∧
      (∀ step ∈ [(loopingPlace, Request.rescan fun _ _ => {})],
        workspace.repositories.Marked step.1) ∧
      (workspace.after [(loopingPlace, .rescan fun _ _ => {})]).Owned := by
  obtain ⟨workspace, hopen⟩ := exists_openAt loopingPlace loopingSettings [.ofString "/w"]
  have hset : workspace.repositories = loopingSet :=
    (each_openAt hopen).1.trans discover_loopingPlace
  have hunnamed := hset ▸ proper_loopingSet
  have hmarked : ∀ step ∈ [(loopingPlace, Request.rescan fun _ _ => {})],
      workspace.repositories.Marked step.1 := by
    intro step hstep
    rw [List.mem_singleton.mp hstep, hset]
    exact marked_loopingSet
  refine ⟨workspace, hopen, hunnamed, hmarked, ?_⟩
  refine (owned_along_run_iff hopen hunnamed hmarked).1.mpr (fun front view file back h => ?_)
    _ [] (List.append_nil _).symm
  have hmem : (view, Request.add file) ∈ [(loopingPlace, Request.rescan fun _ _ => {})] := by
    rw [h]
    simp
  cases List.mem_singleton.mp hmem

/-- With a file through too many links a path is recorded twice. -/
theorem recorded_twice_in_loopingPlace :
    ∃ workspace, openAt loopingPlace loopingSettings [.ofString "/w"] = .ok workspace ∧
      (∀ r ∈ workspace.repositories.roots, r.fileName? ≠ some .git) ∧
      workspace.repositories.Marked loopingPlace ∧
      let now := workspace.after
        [(loopingPlace, .rescan fun _ _ => {}), (loopingPlace, .add loopingFile)]
      ¬now.Owned ∧
        ¬((now.holder.values (Tracker.tracking loopingPlace)).map (·.path.components)).Nodup := by
  have htwice : (match ofRepositories loopingPlace loopingSettings.tracker loopingSet with
      | .ok workspace =>
        let now := workspace.after
          [(loopingPlace, .rescan fun _ _ => {}), (loopingPlace, .add loopingFile)]
        !decide (now.holder.registered.flatMap fun t =>
          t.recorded.paths.map Path.components).Nodup
      | .error _ => false) = true := by
    decide +kernel
  obtain ⟨workspace, hopen⟩ := exists_openAt loopingPlace loopingSettings [.ofString "/w"]
  have hset : workspace.repositories = loopingSet :=
    (each_openAt hopen).1.trans discover_loopingPlace
  rw [openAt, discover_loopingPlace] at hopen
  rw [hopen] at htwice
  simp only [Bool.not_eq_true', decide_eq_false_iff_not] at htwice
  rw [← (perm_components_values _ loopingPlace).nodup_iff] at htwice
  rw [← discover_loopingPlace] at hopen
  refine ⟨workspace, hopen, hset ▸ proper_loopingSet, hset ▸ marked_loopingSet, fun howned => ?_,
    htwice⟩
  exact htwice (nodup_values ((fits_of_openAt hopen).after _) howned loopingPlace)

end Workspace

end IgnoreAtlas
