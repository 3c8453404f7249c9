import IgnoreAtlas.Proofs.FileSystem.Lookup
import IgnoreAtlas.Proofs.Path.Below
import IgnoreAtlas.Proofs.Rule.Growth
import IgnoreAtlas.Proofs.Tracker.Sweep

/-!
# One more rule for a tracker

Two places are compared that differ in one file, which in the second has one more line (`GrowsAt`).
Wherever that file is read as rules, they grow, and so what the rules ignored in the first place they
ignore in the second (`Scan.Job.Grows.ignoresAt`). The record of a scan can still get smaller: a
directory that is ignored now stands for all that was recorded below it. What a tracker calls ignored
does not (`containsFile_of_growsAt`).

The file must not also be read for something else. The file of the user's own rules can be the one
that says where these are, and what says where the excludes of a repository are can be a link to one
of its rule files. Then one more line changes which rules there are, and something may be ignored no
more (`unignored_in_heathPlace`).
-/

namespace IgnoreAtlas

/-- Both are nothing, or entries of the same kind: links with the same target, or files whose rules
grow. -/
inductive Entry.Grown : Option Entry → Option Entry → Prop
  | none : Grown none none
  | link (target : Path) : Grown (some (.link target)) (some (.link target))
  | dir (inside within : Listing) : Grown (some (.dir inside)) (some (.dir within))
  | file (content more : Content) :
      (RuleFile.ofBytes content.bytes).Grows (.ofBytes more.bytes) →
        Grown (some (.file content)) (some (.file more))

namespace Entry.Grown

variable {e more : Option Entry}

/-- What looks the same has the same rules. -/
theorem of_surface (h : more.map surface = e.map surface) : Grown e more := by
  cases e with
  | none =>
    rw [Option.map_none, Option.map_eq_none_iff] at h
    rw [h]
    exact .none
  | some e =>
    rw [Option.map_some, Option.map_eq_some_iff] at h
    obtain ⟨e', rfl, hsurface⟩ := h
    cases e <;> cases e' <;> cases hsurface
    · exact .file _ _ (.refl _)
    · exact .link _
    · exact .dir _ _

theorem outline_eq (h : Grown e more) : more.map outline = e.map outline := by
  cases h <;> rfl

theorem isSome_eq (h : Grown e more) : more.isSome = e.isSome := by
  cases h <;> rfl

theorem any_isDir_eq (h : Grown e more) : more.any isDir = e.any isDir := by
  cases h <;> rfl

/-- Read as rules, what is there grows. -/
theorem bytes_grows (h : Grown e more) :
    (RuleFile.ofBytes ((e.map Entry.bytes).getD [])).Grows
      (.ofBytes ((more.map Entry.bytes).getD [])) := by
  cases h with
  | none | link _ | dir _ _ => exact .refl _
  | file _ _ hgrows => exact hgrows

end Entry.Grown

namespace Place

/-- In the second place one file has one more line. All else looks the same in both. -/
structure GrowsAt (place other : Place) (spot : Location) : Prop where
  cwd : other.cwd = place.cwd
  home : other.home = place.home
  configHome : other.configHome = place.configHome
  file : ∃ before after, place.files.entry? spot = some (.file before) ∧
    other.files.entry? spot = some (.file after) ∧ AddsLine before.bytes after.bytes
  elsewhere : ∀ location, location ≠ spot →
    (other.files.entry? location).map Entry.surface =
      (place.files.entry? location).map Entry.surface

namespace GrowsAt

variable {place other : Place} {spot location : Location}

theorem grown (h : place.GrowsAt other spot) (location : Location) :
    Entry.Grown (place.files.entry? location) (other.files.entry? location) := by
  by_cases heq : location = spot
  · obtain ⟨before, after, hbefore, hafter, hadds⟩ := h.file
    rw [heq, hbefore, hafter]
    exact .file _ _ (RuleFile.grows_of_addsLine hadds)
  · exact .of_surface (h.elsewhere location heq)

/-! ## What is read in both places -/

/-- The same locations are directories. -/
theorem listing?_eq_none_iff (h : place.GrowsAt other spot) :
    other.files.listing? location = none ↔ place.files.listing? location = none := by
  simp only [Option.eq_none_iff_forall_ne_some, ne_eq, ← FileSystem.entry?_eq_dir_iff]
  have hentry := h.grown location
  generalize place.files.entry? location = e at hentry ⊢
  generalize other.files.entry? location = more at hentry ⊢
  cases hentry <;> simp

theorem currentDir?_eq (h : place.GrowsAt other spot) : other.currentDir? = place.currentDir? := by
  unfold currentDir?
  rw [h.cwd]
  cases hhere : place.files.listing? place.cwd with
  | none => rw [h.listing?_eq_none_iff.mpr hhere]
  | some inside =>
    cases hthere : other.files.listing? place.cwd with
    | none =>
      rw [h.listing?_eq_none_iff.mp hthere] at hhere
      cases hhere
    | some within => rfl

/-- Every path leads to the same location. -/
theorem resolve_eq_ok_iff (h : place.GrowsAt other spot) {p : Path} :
    other.files.resolve other.cwd p = .ok location ↔
      place.files.resolve place.cwd p = .ok location := by
  have hsame : place.files.SameOutlines other.files := by
    intro location
    exact (h.grown location).outline_eq.symm
  rw [h.cwd, FileSystem.resolve, FileSystem.resolve, hsame.locate_eq]

theorem grown_find? (h : place.GrowsAt other spot) (p : Path) :
    Entry.Grown (place.find? p) (other.find? p) := by
  unfold Place.find? FileSystem.find?
  cases hhere : place.files.resolve place.cwd p with
  | ok location =>
    rw [h.resolve_eq_ok_iff.mpr hhere]
    exact h.grown location
  | error fault =>
    cases hthere : other.files.resolve other.cwd p with
    | ok location =>
      rw [h.resolve_eq_ok_iff.mp hthere] at hhere
      cases hhere
    | error fault => exact .none

theorem exists?_eq (h : place.GrowsAt other spot) (p : Path) : other.exists? p = place.exists? p :=
  (h.grown_find? p).isSome_eq

/-- The same directories are inside a repository. -/
theorem isEnclosed_eq (h : place.GrowsAt other spot) (location : Location) :
    other.isEnclosed location = place.isEnclosed location := by
  simp only [isEnclosed, h.exists?_eq]

theorem isDir_eq (h : place.GrowsAt other spot) (p : Path) : other.isDir p = place.isDir p := by
  have hfind := h.grown_find? p
  unfold isDir
  generalize place.find? p = e at hfind ⊢
  generalize other.find? p = more at hfind ⊢
  cases hfind <;> rfl

theorem isFile_eq (h : place.GrowsAt other spot) (p : Path) : other.isFile p = place.isFile p := by
  have hfind := h.grown_find? p
  unfold isFile
  generalize place.find? p = e at hfind ⊢
  generalize other.find? p = more at hfind ⊢
  cases hfind <;> rfl

/-! ## The rules that are read -/

theorem readOrNothing_grows (h : place.GrowsAt other spot) (p : Path) :
    (RuleFile.ofBytes (place.readOrNothing p)).Grows (.ofBytes (other.readOrNothing p)) := by
  rw [readOrNothing_eq_bytes, readOrNothing_eq_bytes]
  exact (h.grown_find? p).bytes_grows

/-- The user's own rules grow where they are read from the same file. -/
theorem sharedRules_grows (h : place.GrowsAt other spot)
    (hshared : Rule.sharedFile other = Rule.sharedFile place) :
    (Rule.sharedRules place).Grows (Rule.sharedRules other) := by
  unfold Rule.sharedRules
  simp only [hshared, h.currentDir?_eq, h.isFile_eq]
  split
  · split
    · exact h.readOrNothing_grows _
    · exact .refl _
  · exact .refl _

/-- The excludes of a repository grow where they are read from the same directory. -/
theorem excludes_grows (h : place.GrowsAt other spot) {root : Path}
    (hexcludes : Rule.excludesDir? other root = Rule.excludesDir? place root) :
    (Rule.excludes place root).Grows (Rule.excludes other root) := by
  unfold Rule.excludes
  rw [hexcludes]
  split
  · exact h.readOrNothing_grows _
  · exact .refl _

section Listings

variable {inside within : Listing} {n : Name}

theorem presentIn_eq (h : place.GrowsAt other spot)
    (hentry : Entry.Grown (inside.find? n) (within.find? n)) :
    other.presentIn location within n = place.presentIn location inside n := by
  unfold presentIn
  generalize inside.find? n = e at hentry ⊢
  generalize within.find? n = more at hentry ⊢
  cases hentry with
  | none | dir _ _ | file _ _ _ => rfl
  | link target => exact h.exists?_eq _

theorem bytesIn_grows (h : place.GrowsAt other spot)
    (hentry : Entry.Grown (inside.find? n) (within.find? n)) :
    (RuleFile.ofBytes (place.bytesIn location inside n)).Grows
      (.ofBytes (other.bytesIn location within n)) := by
  unfold Place.bytesIn
  generalize inside.find? n = e at hentry ⊢
  generalize within.find? n = more at hentry ⊢
  cases hentry with
  | none | dir _ _ => exact .refl _
  | file _ _ hgrows => exact hgrows
  | link target => exact h.readOrNothing_grows _

/-- The rules that a directory brings along grow. -/
theorem frameOf_grows (h : place.GrowsAt other spot)
    (hentries : ∀ n, Entry.Grown (inside.find? n) (within.find? n)) (settings : TrackerSettings)
    (p : Path) :
    (Chain.frameOf place settings p location inside).Grows
      (Chain.frameOf other settings p location within) := by
  constructor
  case base => rfl
  case boundary => rw [Chain.frameOf, Chain.frameOf, h.presentIn_eq (hentries .jj)]
  case excludes => exact .refl _
  case rules =>
    unfold Chain.frameOf
    dsimp only
    split
    · exact h.bytesIn_grows (hentries .gitignore)
    · exact .refl _

/-- So do those of a root. -/
theorem rootFrame_grows (h : place.GrowsAt other spot)
    (hentries : ∀ n, Entry.Grown (inside.find? n) (within.find? n)) (settings : TrackerSettings)
    {root : Path} (hexcludes : Rule.excludesDir? other root = Rule.excludesDir? place root) :
    (Chain.rootFrame place settings root location inside).Grows
      (Chain.rootFrame other settings root location within) := by
  have hframe : (Chain.frameOf place settings root location inside).Grows
      (Chain.frameOf other settings root location within) := h.frameOf_grows hentries settings root
  constructor
  case base => exact hframe.base
  case rules => exact hframe.rules
  case boundary =>
    rw [Chain.rootFrame, Chain.rootFrame, hframe.boundary, h.presentIn_eq (hentries .git)]
  case excludes =>
    unfold Chain.rootFrame
    dsimp only
    split
    · exact h.excludes_grows hexcludes
    · exact .refl _

end Listings

end GrowsAt

variable {place : Place}

/-- A file of text that is written again with one more line. -/
theorem growsAt_written (location : Location) (n : Name) {before after : String}
    (hfile : place.files.entry? (location ++ [n]) = some (.file (.literal (Utf8.encode before))))
    (hadds : AddsLine (Utf8.encode before) (Utf8.encode after)) :
    place.GrowsAt (place.written location n after) (location ++ [n]) := by
  obtain ⟨inside, hinside⟩ := FileSystem.exists_listing?_of_entry? (List.cons_ne_nil n []) hfile
  have hwritten : FileSystem.entry? (place.written location n after).files (location ++ [n]) =
      some (.file (.literal (Utf8.encode after))) :=
    FileSystem.entry?_putFile_self hinside
  refine ⟨rfl, rfl, rfl, ⟨_, _, hfile, hwritten, hadds⟩, ?_⟩
  intro spot hspot
  exact surface_written (Option.isSome_of_eq_some hinside) (by rw [hfile]; rfl) hspot

end Place

namespace Scan.Job

variable {job other : Job} {names dir : List Name} {spot : Location}

/-- A scan of the same root in both places, in which the rules are read from the same files. -/
structure Grows (job other : Job) (spot : Location) : Prop where
  place : job.place.GrowsAt other.place spot
  settings : other.settings = job.settings
  root : other.root = job.root
  shared : Rule.sharedFile other.place = Rule.sharedFile job.place
  excludes : Rule.excludesDir? other.place job.root = Rule.excludesDir? job.place job.root

theorem Grows.location_eq (h : job.Grows other spot) : other.location = job.location := by
  have hroot := other.resolved
  rw [h.root, h.place.resolve_eq_ok_iff, job.resolved] at hroot
  exact (Except.ok.inj hroot).symm

theorem Grows.grown (h : job.Grows other spot) (names : List Name) :
    Entry.Grown (job.inside.entry? names) (other.inside.entry? names) := by
  rw [← FileSystem.entry?_append job.listed, ← FileSystem.entry?_append other.listed, h.location_eq]
  exact h.place.grown _

/-- The entries of a directory below the root, or of nothing. -/
theorem find?_descend (job : Job) (dir : List Name) (n : Name) :
    ((job.inside.descend dir).getD .empty).find? n = job.inside.entry? (dir ++ [n]) := by
  cases hdir : job.inside.descend dir with
  | some inside => rw [Listing.entry?_append hdir, Listing.entry?_singleton, Option.getD_some]
  | none =>
    cases hentry : job.inside.entry? (dir ++ [n]) with
    | none => rfl
    | some e =>
      obtain ⟨inside, hinside⟩ := Listing.exists_descend_of_entry? (List.cons_ne_nil n [])
        (Option.isSome_of_eq_some hentry)
      rw [hdir] at hinside
      cases hinside

theorem Grows.frameAt_grows (h : job.Grows other spot) (dir : List Name) :
    (job.frameAt dir).Grows (other.frameAt dir) := by
  have hentries (n : Name) : Entry.Grown (((job.inside.descend dir).getD .empty).find? n)
      (((other.inside.descend dir).getD .empty).find? n) := by
    rw [find?_descend, find?_descend]
    exact h.grown _
  cases dir with
  | nil =>
    rw [Job.frameAt, Job.frameAt, h.settings, h.root, h.location_eq]
    exact h.place.rootFrame_grows hentries _ h.excludes
  | cons n names =>
    rw [Job.frameAt, Job.frameAt, h.settings, path, path, h.root, h.location_eq]
    exact h.place.frameOf_grows hentries _ _

/-- The rules for the entries of a directory grow. -/
theorem Grows.rulesAt_grows (h : job.Grows other spot) (dir : List Name) :
    (job.rulesAt dir).Grows (other.rulesAt dir) := by
  constructor
  case frames =>
    refine List.forall₂_map_left_iff.mpr (List.forall₂_map_right_iff.mpr ?_)
    exact List.forall₂_same.mpr fun above _ => h.frameAt_grows above
  case enclosed =>
    show (other.settings.gitIgnore && other.place.isEnclosed other.location) =
      (job.settings.gitIgnore && job.place.isEnclosed job.location)
    rw [h.settings, h.location_eq, h.place.isEnclosed_eq]
  case sharedBase =>
    show (Path.ofLocation other.place.cwd).bytes = (Path.ofLocation job.place.cwd).bytes
    rw [h.place.cwd]
  case shared =>
    show (if job.settings.gitGlobal then Rule.sharedRules job.place else []).Grows
      (if other.settings.gitGlobal then Rule.sharedRules other.place else [])
    rw [h.settings]
    split
    · exact h.place.sharedRules_grows h.shared
    · exact .refl _

/-- What the rules ignore they still ignore. -/
theorem Grows.ignoresAt (h : job.Grows other spot) (hignores : job.ignoresAt names) :
    other.ignoresAt names := by
  have hdir : other.isDirAt names = job.isDirAt names := (h.grown names).any_isDir_eq
  unfold Job.ignoresAt ignores at hignores ⊢
  rw [hdir, path, h.root]
  exact (h.rulesAt_grows names.dropLast).ignores hignores

/-- The same entries are scanned. -/
theorem Grows.scanned (h : job.Grows other spot) (hscan : job.Scanned names) :
    other.Scanned names := by
  constructor
  case below => exact hscan.below
  case unnamed => exact hscan.unnamed
  case present =>
    rw [(h.grown names).isSome_eq]
    exact hscan.present
  case bare =>
    intro part hne hpart
    rw [path, h.root, h.place.exists?_eq]
    exact hscan.bare part hne hpart

/-- At or above what is recorded something still is. -/
theorem Grows.exists_records (h : job.Grows other spot) (hrecords : job.Records names) :
    ∃ part, part <+: names ∧ other.Records part := by
  rcases hrecords with htop | ⟨rfl, hask, hthere⟩
  · have hignored : ∃ part, part ≠ [] ∧ part <+: names ∧ other.ignoresAt part :=
      ⟨names, htop.scanned.below, List.prefix_rfl, h.ignoresAt htop.ignored⟩
    obtain ⟨part, hpart, hmore⟩ := (exists_topmost_iff (h.scanned htop.scanned)).mpr hignored
    exact ⟨part, hpart, .inl hmore⟩
  · refine ⟨[.git], List.prefix_rfl, .inr ⟨rfl, ?_, ?_⟩⟩
    · rw [h.settings]
      exact hask
    · rw [h.root, h.place.exists?_eq]
      exact hthere

/-- What is at or below a recorded path still is. -/
theorem Grows.holdsBelow (h : job.Grows other spot) (hroot : job.root.isAbsolute) {p : Path}
    (hp : p.isAbsolute) (hholds : job.recorded.holdsBelow job.root p.ancestors) :
    other.recorded.holdsBelow job.root p.ancestors := by
  rw [PathSet.holdsBelow_ancestors hroot hp] at hholds ⊢
  obtain ⟨c, -, hc, hrecorded⟩ := hholds
  obtain ⟨names, hnames, rfl⟩ := (contains_recorded hroot).mp hrecorded
  obtain ⟨part, hpart, hmore⟩ := h.exists_records hnames
  refine ⟨(job.path part).components, Path.prefix_components_descend hroot part,
    ((Path.components_descend_prefix hroot).mpr hpart).trans hc, ?_⟩
  refine (contains_recorded (h.root ▸ hroot)).mpr ⟨part, hmore, ?_⟩
  rw [path, path, h.root]

end Scan.Job

namespace Tracker

variable {place other : Place} {tracker : Tracker} {spot : Location}

/-- One file gets one more line that keeps nothing, and the rules are looked for where they were. A scan
then ends as it did before, and all that was called ignored after it still is. -/
theorem containsFile_of_growsAt (hroot : tracker.root.isAbsolute) (h : place.GrowsAt other spot)
    (hshared : Rule.sharedFile other = Rule.sharedFile place)
    (hexcludes : Rule.excludesDir? other tracker.root = Rule.excludesDir? place tracker.root) :
    (tracker.rescan other).1 = (tracker.rescan place).1 ∧
      ∀ file, (tracker.rescan place).2.containsFile file →
        (tracker.rescan other).2.containsFile file := by
  by_cases hdir : place.isDir tracker.root
  · have hdir' : other.isDir tracker.root := by rwa [h.isDir_eq]
    obtain ⟨job, hjob⟩ : ∃ job, Scan.Job.of? place tracker.settings tracker.root = some job :=
      Scan.exists_job_iff.mpr hdir
    obtain ⟨more, hmore⟩ : ∃ job, Scan.Job.of? other tracker.settings tracker.root = some job :=
      Scan.exists_job_iff.mpr hdir'
    rw [rescan, rescan, Scan.record_eq_ok hjob, Scan.record_eq_ok hmore]
    refine ⟨rfl, ?_⟩
    obtain ⟨rfl, hsettings, hsame⟩ := Scan.Job.of?_eq_some hjob
    obtain ⟨rfl, hsettings', hsame'⟩ := Scan.Job.of?_eq_some hmore
    have hgrows : job.Grows more spot :=
      ⟨h, hsettings'.trans hsettings.symm, hsame'.trans hsame.symm, hshared, hsame ▸ hexcludes⟩
    intro file hfile
    have hholds := hgrows.holdsBelow (hsame ▸ hroot) (isAbsolute_absolute hroot file) (hsame ▸ hfile)
    rwa [hsame] at hholds
  · have hdir' : ¬other.isDir tracker.root := by rwa [h.isDir_eq]
    rw [rescan, rescan, Scan.record_of_not_isDir hdir, Scan.record_of_not_isDir hdir']
    exact ⟨rfl, fun file hfile => hfile⟩

/-! ## A heath -/

/-- A repository `/heath` with rules of its own. The user's own rules are in the file that could also
say where they are, `/hut/.gitconfig`. -/
def heathPlace : Place where
  files :=
    { top := .dir (.spell "heath")
        (.dir .git .empty <|
          .file .gitignore (.literal (Utf8.encode "reed\nrush\n")) <|
          .file (.spell "fen") (.literal []) <|
          .dir (.spell "moor")
            (.file (.spell "reed") (.literal []) <| .file (.spell "rush") (.literal []) .empty)
            .empty) <|
        .dir (.spell "hut")
          (.file (.spell ".gitconfig") (.literal (Utf8.encode "[core]\nfen\n")) <|
            .dir (.spell ".config")
              (.dir (.spell "git")
                (.file (.spell "config")
                  (.literal (Utf8.encode "[core]\nexcludesfile=~/.gitconfig\n")) .empty)
                .empty) .empty) .empty
      distinct := by decide +kernel }
  cwd := []
  home := .ofString "/hut"

/-- The tracker of that repository. -/
def heathTracker : Tracker := ⟨.ofString "/heath", {}, .empty, false⟩

/-- A rule for a directory, behind those for what is in it. -/
def mownHeathPlace : Place :=
  heathPlace.written [.spell "heath"] .gitignore "reed\nrush\nmoor\n"

/-- One directory is recorded now instead of two files, and all is still ignored. -/
theorem containsFile_of_growsAt_heathPlace :
    heathPlace.GrowsAt mownHeathPlace [.spell "heath", .gitignore] ∧
      (heathTracker.rescan heathPlace).2.ignoredCount = 4 ∧
      (heathTracker.rescan mownHeathPlace).2.ignoredCount = 3 ∧
      ∀ file, (heathTracker.rescan heathPlace).2.containsFile file →
        (heathTracker.rescan mownHeathPlace).2.containsFile file := by
  have hadds : AddsLine (Utf8.encode "reed\nrush\n") (Utf8.encode "reed\nrush\nmoor\n") := by
    refine ⟨.inr ?_, Utf8.encode "moor", ?_, ?_, ?_, .inr ?_⟩ <;> decide +kernel
  have hgrows : heathPlace.GrowsAt mownHeathPlace [.spell "heath", .gitignore] :=
    Place.growsAt_written [.spell "heath"] .gitignore (by decide +kernel) hadds
  refine ⟨hgrows, by decide +kernel, by decide +kernel, ?_⟩
  exact (containsFile_of_growsAt (by decide +kernel) hgrows (by decide +kernel)
    (by decide +kernel)).2

/-- The user's own rules now say where these are. -/
def movedHeathPlace : Place :=
  heathPlace.written [.spell "hut"] (.spell ".gitconfig") "[core]\nfen\nexcludesfile=y\n"

/-- A repository `/copse` whose excludes are elsewhere. The file that says where is a link to a rule
file of the repository, which is empty. -/
def copsePlace : Place where
  files :=
    { top := .dir (.spell "copse")
        (.file .git (.literal (Utf8.encode "gitdir: /brook\n")) <|
          .file .gitignore (.literal (Utf8.encode "")) <|
          .file (.spell "alder") (.literal []) .empty) <|
        .dir (.spell "brook") (.link (.spell "commondir") (.ofString "/copse/.gitignore") .empty) <|
        .dir (.spell "glade")
          (.dir (.spell "info")
            (.file (.spell "exclude") (.literal (Utf8.encode "!alder\n")) .empty) .empty) <|
        .file (.spell "ignore") (.literal (Utf8.encode "alder\n")) <|
        .file (.spell ".gitconfig") (.literal (Utf8.encode "[core]\nexcludesfile=/ignore\n")) .empty
      distinct := by decide +kernel }
  cwd := []
  home := .ofString "/"

/-- The tracker of that repository. -/
def copseTracker : Tracker := ⟨.ofString "/copse", {}, .empty, false⟩

/-- The rule file now says where the excludes are. -/
def movedCopsePlace : Place := copsePlace.written [.spell "copse"] .gitignore "/glade\n"

/-- A file is no longer ignored when the user's own rules are looked for elsewhere, or the excludes
of the repository are. -/
theorem unignored_in_heathPlace :
    (heathPlace.GrowsAt movedHeathPlace [.spell "hut", .spell ".gitconfig"] ∧
      Rule.excludesDir? movedHeathPlace heathTracker.root =
        Rule.excludesDir? heathPlace heathTracker.root ∧
      (heathTracker.rescan heathPlace).2.containsFile (.ofString "/heath/fen") ∧
      ¬(heathTracker.rescan movedHeathPlace).2.containsFile (.ofString "/heath/fen")) ∧
    copsePlace.GrowsAt movedCopsePlace [.spell "copse", .gitignore] ∧
      Rule.sharedFile movedCopsePlace = Rule.sharedFile copsePlace ∧
      (copseTracker.rescan copsePlace).2.containsFile (.ofString "/copse/alder") ∧
      ¬(copseTracker.rescan movedCopsePlace).2.containsFile (.ofString "/copse/alder") := by
  have hheath : AddsLine (Utf8.encode "[core]\nfen\n")
      (Utf8.encode "[core]\nfen\nexcludesfile=y\n") := by
    refine ⟨.inr ?_, Utf8.encode "excludesfile=y", ?_, ?_, ?_, .inr ?_⟩ <;> decide +kernel
  have hcopse : AddsLine (Utf8.encode "") (Utf8.encode "/glade\n") := by
    refine ⟨.inl ?_, Utf8.encode "/glade", ?_, ?_, ?_, .inr ?_⟩ <;> decide +kernel
  refine ⟨⟨?_, ?_, ?_, ?_⟩, ?_, ?_, ?_, ?_⟩
  · exact Place.growsAt_written [.spell "hut"] (.spell ".gitconfig") (by decide +kernel) hheath
  · decide +kernel
  · decide +kernel
  · decide +kernel
  · exact Place.growsAt_written [.spell "copse"] .gitignore (by decide +kernel) hcopse
  · decide +kernel
  · decide +kernel
  · decide +kernel

end Tracker

end IgnoreAtlas
