import IgnoreAtlas.Proofs.Discovery.Search
import IgnoreAtlas.Proofs.Holder.Trackers
import IgnoreAtlas.Proofs.Repository.Routing
import IgnoreAtlas.Workspace

/-!
# Runs of a workspace

A run is a list of requests, each made in a place of its own: files, and the current directory, may
change between any two of them. Whatever a run does, `Fits` holds: the set of repositories stays,
the registry has all of them or, once all trackers are let go of, none, and each tracker has the
root of its repository and the settings that the workspace was opened with.
-/

namespace IgnoreAtlas

namespace Workspace

/-- What can be asked of a workspace and can change its trackers, or might. -/
inductive Request
  | rescan (react : Update.Reactions)
  | add (file : Path)
  | check (file : Path)
  | cleanAll

/-- One request. -/
def perform (workspace : Workspace) (place : Place) : Request → Workspace
  | .rescan react => (workspace.rescan place react).2
  | .add file =>
    { workspace with
      holder := workspace.holder.addFile place (workspace.repositories.router place)
        (Tracker.tracking place) file }
  | .check file =>
    { workspace with
      holder := (workspace.holder.containsFile place (workspace.repositories.router place)
        (Tracker.tracking place) file).2 }
  | .cleanAll => { workspace with holder := workspace.holder.cleanAll (Tracker.tracking place) }

/-- Requests, one after the other. -/
def after (workspace : Workspace) (run : List (Place × Request)) : Workspace :=
  run.foldl (fun workspace step => workspace.perform step.1 step.2) workspace

theorem after_append (workspace : Workspace) (front back : List (Place × Request)) :
    workspace.after (front ++ back) = (workspace.after front).after back := List.foldl_append

/-- The tracker of a repository in a workspace with these settings. -/
def Serves (settings : TrackerSettings) (repository : Repository) (tracker : Tracker) : Prop :=
  tracker.root = repository.root ∧ tracker.settings = settings

/-- The workspace is one of these repositories and settings. -/
structure Fits (set : RepositorySet) (settings : TrackerSettings) (workspace : Workspace) :
    Prop where
  repositories : workspace.repositories = set
  registered : workspace.holder.repositories = set.repositories ∨
    workspace.holder.registry = .empty
  serves : workspace.holder.Each (Serves settings)

variable {set : RepositorySet} {settings : TrackerSettings} {workspace : Workspace} {place : Place}

/-- A scan leaves the root and the settings of a tracker. -/
theorem serves_rescan {repository : Repository} {tracker : Tracker}
    (h : Serves settings repository tracker) :
    Serves settings repository (tracker.rescan place).2 := by
  unfold Tracker.rescan
  split <;> exact h

/-- So does adding a file. -/
theorem serves_addFile {repository : Repository} {tracker : Tracker} {file : Path}
    (h : Serves settings repository tracker) :
    Serves settings repository (tracker.addFile file) := by
  unfold Tracker.addFile
  dsimp only
  split <;> exact h

/-! ## Whom a file is routed to -/

/-- A repository with a tracker is one of the set. -/
theorem Fits.mem_repositories (h : workspace.Fits set settings) {e : Repository × Handle}
    (he : e ∈ workspace.holder.registry.entries) : e.1 ∈ set.repositories := by
  rcases h.registered with hall | hnone
  · exact hall ▸ List.mem_map_of_mem he
  · rw [hnone] at he
    exact absurd he List.not_mem_nil

/-- A file is routed to the tracker of the root that its normal spelling belongs to. -/
theorem Fits.locate?_eq_some_iff (h : workspace.Fits set settings) {file spelled : Path}
    {handle : Handle} :
    Holder.locate? place (workspace.repositories.router place) workspace.holder file =
        some (handle, spelled) ↔
      spelled = place.normalize file ∧ ∃ e ∈ workspace.holder.registry.entries,
        e.2 = handle ∧ set.rootOf? place spelled = some e.1.root := by
  have hroute {q : Path} :
      (workspace.repositories.router place).locate? workspace.holder.registry q = some handle ↔
        ∃ e ∈ workspace.holder.registry.entries, e.2 = handle ∧
          set.rootOf? place q = some e.1.root := by
    simp only [Router.locate?, RepositorySet.router, h.repositories, Option.bind_eq_bind,
      Option.bind_eq_some_iff, Registry.get?_eq_some_iff]
    constructor
    · rintro ⟨root, hroot, r, hr, e, he, hsame, hhandle⟩
      obtain ⟨hmem, -⟩ := RepositorySet.deepest?_eq_some_iff.mp hroot
      obtain ⟨r', hr', rfl⟩ := List.mem_map.mp hmem
      obtain rfl : r' = r := Option.some.inj <|
        (RepositorySet.withRoot?_eq_some hr' (Path.same_iff.mpr rfl)).symm.trans hr
      have heq := RepositorySet.eq_of_components_eq (h.mem_repositories he) hr' hsame
      exact ⟨e, he, hhandle, by rw [heq]; exact hroot⟩
    · rintro ⟨e, he, hhandle, hroot⟩
      exact ⟨e.1.root, hroot, e.1,
        RepositorySet.withRoot?_eq_some (h.mem_repositories he) (Path.same_iff.mpr rfl),
        e, he, rfl, hhandle⟩
  simp only [Holder.locate?, Option.map_eq_some_iff, Prod.mk.injEq]
  constructor
  · rintro ⟨handle', hlocate, rfl, rfl⟩
    exact ⟨rfl, hroute.mp hlocate⟩
  · rintro ⟨rfl, hentry⟩
    exact ⟨handle, hroute.mpr hentry, rfl, rfl⟩

/-- Adding a file changes the tracker that it is routed to, if there is one. -/
theorem Fits.perform_add (h : workspace.Fits set settings) (place : Place) (file : Path) :
    (∃ e ∈ workspace.holder.registry.entries,
      set.rootOf? place (place.normalize file) = some e.1.root ∧
        workspace.perform place (.add file) =
          { workspace with
            holder := workspace.holder.update e.2 (Tracker.addFile · (place.normalize file)) }) ∨
      (∀ e ∈ workspace.holder.registry.entries,
        set.rootOf? place (place.normalize file) ≠ some e.1.root) ∧
        workspace.perform place (.add file) = workspace := by
  have hperform : workspace.perform place (.add file) =
      { workspace with
        holder := workspace.holder.addFile place (workspace.repositories.router place)
          (Tracker.tracking place) file } := rfl
  rw [hperform, Holder.addFile]
  cases hlocate : Holder.locate? place (workspace.repositories.router place) workspace.holder file with
  | none =>
    refine .inr ⟨fun e he hroot => ?_, rfl⟩
    have hsome := h.locate?_eq_some_iff.mpr ⟨rfl, e, he, rfl, hroot⟩
    rw [hlocate] at hsome
    cases hsome
  | some found =>
    obtain ⟨handle, spelled⟩ := found
    obtain ⟨rfl, e, he, rfl, hroot⟩ := h.locate?_eq_some_iff.mp hlocate
    exact .inl ⟨e, he, hroot, rfl⟩

/-! ## What requests keep -/

variable {p : Repository → Tracker → Prop}

/-- A round of scans keeps what a scan keeps of every tracker, and leaves each as a scan does. -/
theorem each_rescan (h : workspace.holder.Each p) (place : Place) (react : Update.Reactions)
    (hscan : ∀ e ∈ workspace.holder.registry.entries, ∀ t, p e.1 t → p e.1 (t.rescan place).2) :
    (workspace.perform place (.rescan react)).holder.registry = workspace.holder.registry ∧
      (workspace.perform place (.rescan react)).holder.Each p ∧
      (workspace.perform place (.rescan react)).holder.Each fun r t =>
        ∃ before : Tracker, p r before ∧ t = (before.rescan place).2 := by
  have hsame (t : Tracker) : (Tracker.scan place t).2 = (t.rescan place).2 := by
    unfold Tracker.scan
    split <;> simp_all
  have halone : (Tracker.tracking place).rescan = Tracking.rescanAlone (Tracker.scan place) := rfl
  obtain ⟨hregistry, hkept, hdone⟩ := h.startRescan halone react
    fun e he t hp => (hsame t).symm ▸ hscan e he t hp
  refine ⟨hregistry, hkept, hdone.imp fun r t ⟨before, hp, ht⟩ => ⟨before, hp, ?_⟩⟩
  rw [ht, hsame]

/-- Checking a file changes nothing. -/
theorem perform_check (workspace : Workspace) (place : Place) (file : Path) :
    workspace.perform place (.check file) = workspace := by
  have hholder : (workspace.holder.containsFile place (workspace.repositories.router place)
      (Tracker.tracking place) file).2 = workspace.holder := by
    unfold Holder.containsFile
    split
    · split
      · next ht => exact Holder.update_same ht
      · rfl
    · rfl
  rw [perform, hholder]

/-- Adding a file keeps what it keeps of the tracker that the file is routed to. -/
theorem Fits.each_add (hfits : workspace.Fits set settings) (h : workspace.holder.Each p)
    {file : Path}
    (hadd : ∀ e ∈ workspace.holder.registry.entries,
      set.rootOf? place (place.normalize file) = some e.1.root →
        ∀ t, t.root = e.1.root → p e.1 t → p e.1 (t.addFile (place.normalize file))) :
    (workspace.perform place (.add file)).holder.registry = workspace.holder.registry ∧
      (workspace.perform place (.add file)).holder.Each p := by
  rcases hfits.perform_add place file with ⟨e, he, hroot, hperform⟩ | ⟨-, hperform⟩
  · rw [hperform]
    refine ⟨rfl, h.update fun e' he' hhandle t ht hp => ?_⟩
    -- Another repository with this tracker has the tracker's root, and is this one.
    obtain ⟨t₁, ht₁, hserves, -⟩ := hfits.serves e he
    obtain ⟨t₂, ht₂, hserves', -⟩ := hfits.serves e' he'
    obtain rfl : t = t₁ := Option.some.inj (ht.symm.trans ht₁)
    obtain rfl : t = t₂ := Option.some.inj (ht.symm.trans (hhandle ▸ ht₂))
    exact hadd e' he' (by rw [hroot, ← hserves, hserves']) t hserves' hp
  · rw [hperform]
    exact ⟨rfl, h⟩

/-! ## Along a run -/

/-- A workspace that is opened has for each repository that was found a tracker of its own. -/
theorem each_openAt {opened : Settings} {starts : List Path}
    (h : openAt place opened starts = .ok workspace) :
    workspace.repositories = Discovery.discover place opened.discovery starts ∧
      workspace.holder.repositories = workspace.repositories.repositories ∧
      workspace.holder.Each fun r t => Tracker.open? place opened.tracker r.root = .ok t := by
  unfold openAt ofRepositories at h
  cases hbuild : Holder.build (fun r => Tracker.open? place opened.tracker r.root)
      (Discovery.discover place opened.discovery starts).repositories with
  | error trouble => rw [hbuild] at h; cases h
  | ok holder =>
    rw [hbuild] at h
    cases h
    obtain ⟨heach, hall⟩ := Holder.each_build hbuild
    have hnodup := (Discovery.discover place opened.discovery starts).nodup_components
    rw [RepositorySet.roots, List.map_map] at hnodup
    exact ⟨rfl, hall hnodup, heach⟩

/-- What a search finds can be opened, as long as nothing changes in between. -/
theorem exists_openAt (place : Place) (opened : Settings) (starts : List Path) :
    ∃ workspace, openAt place opened starts = .ok workspace := by
  obtain ⟨holder, hbuild⟩ : ∃ holder, Holder.build
      (fun r => Tracker.open? place opened.tracker r.root)
      (Discovery.discover place opened.discovery starts).repositories = .ok holder := by
    refine Holder.exists_build fun r hr => ?_
    have hroot := (Discovery.mem_roots_discover_iff.mp (List.mem_map_of_mem hr)).1
    rw [Discovery.isRoot, Bool.and_eq_true, beq_iff_eq] at hroot
    exact ⟨⟨r.root, opened.tracker, .empty, false⟩, by rw [Tracker.open?, hroot.2]⟩
  exact ⟨_, by rw [openAt, ofRepositories, hbuild]; rfl⟩

/-- A workspace that is opened fits the repositories that were found. -/
theorem fits_of_openAt {opened : Settings} {starts : List Path}
    (h : openAt place opened starts = .ok workspace) :
    workspace.Fits (Discovery.discover place opened.discovery starts) opened.tracker := by
  obtain ⟨hset, hall, heach⟩ := each_openAt h
  refine ⟨hset, .inl (hset ▸ hall), heach.imp fun r t ht => ?_⟩
  rw [Tracker.open?_eq_ok ht]
  exact ⟨rfl, rfl⟩

/-- One request leaves a workspace fitting. -/
theorem Fits.perform (h : workspace.Fits set settings) (place : Place) (request : Request) :
    (workspace.perform place request).Fits set settings := by
  have hregistry {next : Workspace} (hset : next.repositories = workspace.repositories)
      (hnext : next.holder.registry = workspace.holder.registry ∧
        next.holder.Each (Serves settings)) : next.Fits set settings := by
    refine ⟨hset.trans h.repositories, ?_, hnext.2⟩
    rw [Holder.repositories, hnext.1]
    exact h.registered
  cases request with
  | rescan react =>
    have hround := each_rescan h.serves place react fun _ _ _ => serves_rescan
    exact hregistry rfl ⟨hround.1, hround.2.1⟩
  | add file =>
    exact hregistry rfl (h.each_add h.serves fun _ _ _ _ _ ht => serves_addFile ht)
  | check file =>
    rw [perform_check]
    exact h
  | cleanAll =>
    exact ⟨h.repositories, .inr (Holder.registry_cleanAll _ _), Holder.each_cleanAll _ _⟩

/-- A workspace goes on fitting. -/
theorem Fits.after (h : workspace.Fits set settings) (run : List (Place × Request)) :
    (workspace.after run).Fits set settings := by
  induction run generalizing workspace with
  | nil => exact h
  | cons step run ih => exact ih (h.perform step.1 step.2)

/-- Only letting go of all trackers changes the registry. -/
theorem registry_perform (hfits : workspace.Fits set settings) (place : Place) {request : Request}
    (h : request ≠ .cleanAll) :
    (workspace.perform place request).holder.registry = workspace.holder.registry := by
  cases request with
  | rescan react => exact (each_rescan hfits.serves place react fun _ _ _ => serves_rescan).1
  | add file => exact (hfits.each_add hfits.serves fun _ _ _ _ _ => serves_addFile).1
  | check file => rw [perform_check]
  | cleanAll => exact absurd rfl h

theorem registry_after (hfits : workspace.Fits set settings) {run : List (Place × Request)}
    (h : ∀ step ∈ run, step.2 ≠ .cleanAll) :
    (workspace.after run).holder.registry = workspace.holder.registry := by
  induction run generalizing workspace with
  | nil => rfl
  | cons step run ih =>
    have hstep := registry_perform hfits step.1 (h step List.mem_cons_self)
    exact (ih (hfits.perform step.1 step.2) fun s hs => h s (List.mem_cons_of_mem _ hs)).trans hstep

end Workspace

end IgnoreAtlas
