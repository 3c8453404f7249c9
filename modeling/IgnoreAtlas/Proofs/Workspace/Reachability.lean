import IgnoreAtlas.Proofs.Workspace.Answers

/-!
# Files of a repository that was found

A search spells a root by the way that it came; a file is routed by where it is. Where the search has
followed no link the two agree, and then every file of a repository is routed to it, unless a deeper
root is around the file (`reachable_after`).

Behind a link they do not agree. The root of a repository that was found through a link is around no
normal spelling of its files, and they are no one's, or belong to whichever root is around the place
where they are (`unreachable_in_doorPlace`).
-/

namespace IgnoreAtlas

/-- A file that is somewhere is routed by where it is. -/
theorem RepositorySet.rootOf?_of_real {set : RepositorySet} {place : Place} {location : Location}
    (hreal : place.files.Real location) {file : Path} (hfile : place.normalize file = .ofLocation location) :
    set.rootOf? place (place.normalize file) = deepest? set.roots (.ofLocation location) := by
  rw [rootOf?, hfile, (Place.settled_of_real hreal).normalize_eq]

/-- Of the roots around a location one is the deepest when none is between the two. -/
theorem RepositorySet.deepest?_eq_ofLocation_iff {set : RepositorySet}
    (hspelled : ∀ r ∈ set.roots, ∃ names, r = .ofLocation names) {location : Location}
    {names : List Name} :
    deepest? set.roots (.ofLocation (location ++ names)) = some (.ofLocation location) ↔
      .ofLocation location ∈ set.roots ∧
        ∀ part, part ≠ [] → part <+: names → .ofLocation (location ++ part) ∉ set.roots := by
  rw [deepest?_eq_some_iff]
  constructor
  · rintro ⟨hroot, -, hdeep⟩
    refine ⟨hroot, ?_⟩
    intro part hne hpart hin
    have haround : (Path.ofLocation (location ++ names)).startsWith (.ofLocation (location ++ part)) :=
      Path.startsWith_ofLocation_iff.mpr ((List.prefix_append_right_inj location).mpr hpart)
    have hlength := (Path.startsWith_ofLocation_iff.mp (hdeep _ hin haround)).length_le
    rw [List.length_append] at hlength
    exact hne (List.length_eq_zero_iff.mp (by omega))
  · rintro ⟨hroot, hnone⟩
    refine ⟨hroot, Path.startsWith_ofLocation_iff.mpr (List.prefix_append location names), ?_⟩
    intro r hr haround
    obtain ⟨top, rfl⟩ := hspelled r hr
    have htop := Path.startsWith_ofLocation_iff.mp haround
    rw [Path.startsWith_ofLocation_iff]
    rcases List.prefix_or_prefix_of_prefix htop (List.prefix_append location names) with
      habove | ⟨part, rfl⟩
    · exact habove
    · by_cases hnil : part = []
      · rw [hnil, List.append_nil]
      · exact absurd hr (hnone part hnil ((List.prefix_append_right_inj location).mp htop))

namespace FileSystem

variable {fs : FileSystem} {cwd spelled location found : Location} {names : List Name}

/-- Names through real directories lead, behind whatever leads to the first of them, to the entry
that they name. -/
theorem eq_of_resolve_append (h : fs.resolve cwd (.ofLocation spelled) = .ok location)
    (hreal : fs.Real (location ++ names))
    (hfound : fs.resolve cwd (.ofLocation (spelled ++ names)) = .ok found) :
    found = location ++ names := by
  obtain ⟨above, habove, left, -, hwalk⟩ := exists_resolve_of_append hfound
  rw [h, Except.ok.injEq] at habove
  subst habove
  rw [← List.append_nil (names.map Step.enter)] at hwalk
  have hrest := walk_of_real hreal hwalk
  rw [walk_nil, Except.ok.injEq] at hrest
  exact hrest.symm

end FileSystem

namespace Discovery

variable {place : Place} {settings : DiscoverySettings} {root : Path}

/-- A root leads to a directory. -/
theorem exists_resolve_of_isRoot (hspelled : ∃ names, root = .ofLocation names)
    (h : isRoot place root) :
    ∃ location, place.files.resolve place.cwd root = .ok location := by
  obtain ⟨names, rfl⟩ := hspelled
  rw [isRoot, Bool.and_eq_true] at h
  obtain ⟨found, hfound⟩ := Place.exists?_iff.mp h.1
  rw [Path.child_ofLocation] at hfound
  obtain ⟨location, hlocation, -⟩ := FileSystem.exists_resolve_of_append hfound
  exact ⟨location, hlocation⟩

end Discovery

namespace Workspace

variable {set : RepositorySet} {settings : TrackerSettings} {workspace : Workspace} {place : Place}

/-- A file is resolved to a root of the directory that it is below when the path of that directory
is a root, and no root is between the two. -/
theorem Fits.owner_resolves_iff (h : workspace.Fits set settings)
    (hall : workspace.holder.repositories = set.repositories)
    (hspelled : ∀ r ∈ set.roots, ∃ names, r = .ofLocation names)
    (hopens : ∀ r ∈ set.roots, ∃ found, place.files.resolve place.cwd r = .ok found)
    {location : Location} {names : List Name} (hreal : place.files.Real (location ++ names))
    {file : Path} (hfile : place.normalize file = .ofLocation (location ++ names)) :
    (∃ r, workspace.ownerOf? place file = some r ∧
        place.files.resolve place.cwd r.root = .ok location) ↔
      .ofLocation location ∈ set.roots ∧
        ∀ part, part ≠ [] → part <+: names → .ofLocation (location ++ part) ∉ set.roots := by
  simp only [h.ownerOf?_eq_some_iff, RepositorySet.rootOf?_of_real hreal hfile, hall]
  rw [← RepositorySet.deepest?_eq_ofLocation_iff hspelled]
  constructor
  · rintro ⟨r, ⟨-, hdeepest⟩, hresolve⟩
    obtain ⟨hroot, haround, -⟩ := RepositorySet.deepest?_eq_some_iff.mp hdeepest
    obtain ⟨top, htop⟩ := hspelled _ hroot
    rw [htop] at haround hresolve hdeepest
    have habove := Path.startsWith_ofLocation_iff.mp haround
    obtain rfl := FileSystem.eq_of_resolve_ofLocation (hreal.of_prefix habove) hresolve
    exact hdeepest
  · intro hdeepest
    obtain ⟨hroot, -, -⟩ := RepositorySet.deepest?_eq_some_iff.mp hdeepest
    obtain ⟨r, hr, hrroot⟩ := List.mem_map.mp hroot
    obtain ⟨found, hfound⟩ := hopens _ hroot
    have habove := hreal.of_prefix (List.prefix_append location names)
    refine ⟨r, ⟨hr, ?_⟩, ?_⟩
    · rw [hdeepest, hrroot]
    · rw [hrroot, hfound, FileSystem.eq_of_resolve_ofLocation habove hfound]

/-- Every file of a repository that was found, and whom it is resolved to. -/
theorem reachable_after {opened : Settings} {starts : List Path}
    (hopen : openAt place opened starts = .ok workspace) {run : List (Place × Request)}
    (hkept : ∀ step ∈ run, step.2 ≠ .cleanAll) {root : Path}
    (hroot : root ∈ workspace.repositories.roots) :
    let now := workspace.after run
    let roots := workspace.repositories.roots
    ∃ location, place.files.resolve place.cwd root = .ok location ∧
      (opened.discovery.followLinks = false → root = .ofLocation location) ∧
      ∀ names content, place.files.entry? (location ++ names) = some (.file content) →
        (place.exists? (root.descend names) →
          place.normalize (root.descend names) = .ofLocation (location ++ names)) ∧
        ∀ file, place.normalize file = .ofLocation (location ++ names) →
          ((∃ r, now.ownerOf? place file = some r ∧
              place.files.resolve place.cwd r.root = .ok location) ↔
            .ofLocation location ∈ roots ∧
              ∀ part, part ≠ [] → part <+: names → .ofLocation (location ++ part) ∉ roots) ∧
          (root = .ofLocation location →
            (∀ part, part ≠ [] → part <+: names → root.descend part ∉ roots) →
            ∃ r, now.ownerOf? place file = some r ∧
              place.files.resolve place.cwd r.root = .ok location) := by
  have hfits := fits_of_openAt hopen
  have hspelled : ∀ r ∈ (Discovery.discover place opened.discovery starts).roots,
      ∃ names, r = .ofLocation names := fun _ => Discovery.exists_path_of_mem_roots
  have hopens : ∀ r ∈ (Discovery.discover place opened.discovery starts).roots,
      ∃ found, place.files.resolve place.cwd r = .ok found := by
    intro r hr
    exact Discovery.exists_resolve_of_isRoot (hspelled r hr)
      (Discovery.mem_roots_discover_iff.mp hr).1
  rw [hfits.repositories] at hroot ⊢
  obtain ⟨location, hlocation⟩ := hopens root hroot
  obtain ⟨top, htop⟩ := hspelled root hroot
  refine ⟨location, hlocation, ?_, ?_⟩
  · intro hlinks
    obtain ⟨here, inside, rfl, hinside⟩ := Discovery.exists_listing?_of_mem_roots hlinks hroot
    rw [FileSystem.eq_of_resolve_ofLocation (FileSystem.real_of_listing? hinside) hlocation]
  · intro names content hfile
    have hreal : place.files.Real (location ++ names) := ⟨_, hfile, rfl⟩
    refine ⟨?_, ?_⟩
    · intro hexists
      obtain ⟨found, hfound⟩ := Place.exists?_iff.mp hexists
      rw [htop, Path.descend_ofLocation] at hfound ⊢
      rw [htop] at hlocation
      have hsame := FileSystem.eq_of_resolve_append hlocation hreal hfound
      rw [Place.normalize_eq_of_ok (by rw [Place.absolute_ofLocation, hfound]), hsame]
    · intro file hnormal
      have howner := (hfits.after run).owner_resolves_iff (repositories_after hopen run hkept)
        hspelled hopens hreal hnormal
      refine ⟨howner, ?_⟩
      rintro rfl hnone
      simp only [Path.descend_ofLocation] at hnone
      exact howner.mpr ⟨hroot, hnone⟩

/-- A repository `/ext/hub` with a file in it, and a link `/top/door` to the directory above. -/
def doorPlace : Place where
  files :=
    { top := .dir (.spell "ext")
        (.dir (.spell "hub") (.dir .git gitListing <| .file (.spell "z") (.literal []) .empty) .empty) <|
          .dir (.spell "top") (.link (.spell "door") (.ofString "/ext") .empty) .empty
      distinct := by decide +kernel }
  cwd := []
  home := .ofString "/home"

/-- Links are followed. -/
def doorSettings : Settings :=
  { Settings.default (.ofString "/home") with discovery := { followLinks := true } }

def doorLocation : Location := [.spell "ext", .spell "hub"]

def hubSet : RepositorySet where
  repositories := [.ofRoot (.ofString "/ext/hub")]
  sorted := by decide +kernel

def doorSet : RepositorySet where
  repositories := [.ofRoot (.ofString "/top/door/hub")]
  sorted := by decide +kernel

theorem discover_hubSet :
    Discovery.discover doorPlace doorSettings.discovery [.ofString "/ext"] = hubSet :=
  Discovery.discover_eq (by decide +kernel)

theorem discover_doorSet :
    Discovery.discover doorPlace doorSettings.discovery [.ofString "/top"] = doorSet :=
  Discovery.discover_eq (by decide +kernel)

/-- Found where it is, the repository is whom its file is resolved to, though the file is spelled
through the link. -/
theorem reachable_after_doorPlace :
    ∃ workspace, openAt doorPlace doorSettings [.ofString "/ext"] = .ok workspace ∧
      ∃ r, workspace.ownerOf? doorPlace (.ofString "/top/door/hub/z") = some r ∧
        doorPlace.files.resolve doorPlace.cwd r.root = .ok doorLocation := by
  obtain ⟨workspace, hopen⟩ := exists_openAt doorPlace doorSettings [.ofString "/ext"]
  have hset := (fits_of_openAt hopen).repositories.trans discover_hubSet
  have hroots : workspace.repositories.roots = [.ofString "/ext/hub"] := by
    rw [hset]
    rfl
  have hspelled : Path.ofString "/ext/hub" = .ofLocation doorLocation := by decide +kernel
  have hroot : Path.ofLocation doorLocation ∈ workspace.repositories.roots := by
    rw [hroots, hspelled]
    exact List.mem_cons_self
  have hkept : ∀ step ∈ ([] : List (Place × Request)), step.2 ≠ .cleanAll := nofun
  obtain ⟨location, hlocation, -, hfiles⟩ := reachable_after hopen hkept hroot
  have hreal : doorPlace.files.Real doorLocation := ⟨_, rfl, rfl⟩
  obtain rfl := FileSystem.eq_of_resolve_ofLocation hreal hlocation
  obtain ⟨-, howner⟩ := hfiles [.spell "z"] _ rfl
  refine ⟨workspace, hopen, ((howner (.ofString "/top/door/hub/z") ?_).2 rfl ?_)⟩
  · decide +kernel
  · intro part hne hpart hin
    rw [hroots, hspelled, List.mem_singleton, Path.descend_ofLocation, Path.ofLocation_inj] at hin
    exact hne (List.append_right_eq_self.mp hin)

/-- Found through the link, it is not: its file is no one's. -/
theorem unreachable_in_doorPlace :
    ∃ workspace, openAt doorPlace doorSettings [.ofString "/top"] = .ok workspace ∧
      workspace.repositories.roots = [.ofString "/top/door/hub"] ∧
      doorPlace.isFile (.ofString "/top/door/hub/z") ∧
      workspace.ownerOf? doorPlace (.ofString "/top/door/hub/z") = none := by
  obtain ⟨workspace, hopen⟩ := exists_openAt doorPlace doorSettings [.ofString "/top"]
  have hfits := fits_of_openAt hopen
  rw [discover_doorSet] at hfits
  refine ⟨workspace, hopen, ?_, by decide +kernel, ?_⟩
  · rw [hfits.repositories]
    rfl
  · rw [Option.eq_none_iff_forall_ne_some]
    intro r hr
    obtain ⟨-, hroot⟩ := hfits.ownerOf?_eq_some_iff.mp hr
    have hnone : doorSet.rootOf? doorPlace (doorPlace.normalize (.ofString "/top/door/hub/z")) =
        none := by decide +kernel
    rw [hnone] at hroot
    cases hroot

end Workspace

end IgnoreAtlas
