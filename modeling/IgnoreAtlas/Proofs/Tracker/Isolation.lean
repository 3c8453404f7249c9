import IgnoreAtlas.Proofs.Path.Below
import IgnoreAtlas.Proofs.Tracker.Sweep

/-!
# What a scan depends on

Two places are compared in which a root holds the same, but for what is inside other repositories
below it (`AlikeBelow`), and in which the user's own rules are the same (`SharesRules`). Scans of the
root record the same paths in both (`rescan_isolated`): neither what is around the root nor what is
inside a repository below it matters. A repository around the root lets the rules of the root count,
but with a directory `.git` of its own they count anyway (`inRepository_eq_active`).

One file is read without regard to such repositories: the excludes of the root, in
`.git/info/exclude`. A directory on the way to them can hold an entry `.git` itself, and so the
places have to be compared there too (`exposed_in_glenPlace`).
-/

namespace IgnoreAtlas

/-- The name `info`. -/
def Name.info : Name := ⟨[105, 110, 102, 111], by decide⟩

/-- The name `exclude`. -/
def Name.exclude : Name := ⟨[101, 120, 99, 108, 117, 100, 101], by decide⟩

/-- The name `.git` can stand in any path. -/
theorem Name.legal_git : Name.git.Legal := by constructor <;> decide

namespace Path

variable {p q : Path} {n m : Name}

/-- A relative path that is read in an entry stands behind a slash. -/
theorem join_child (h : p.isAbsolute) (n : Name) (hq : q.isAbsolute = false) :
    (p.child n).join q = ⟨(p.child n).bytes ++ slash :: q.bytes⟩ := by
  obtain ⟨front, hbytes, -⟩ := exists_bytes_child (bytes_ne_nil h) n
  have hopen : ¬((p.child n).bytes = [] ∨ (p.child n).bytes.getLast? = some slash) := by
    rw [not_or, hbytes]
    refine ⟨by simp, ?_⟩
    have hlast := getLast?_append_name (front ++ [slash]) n
    rwa [List.append_assoc, List.singleton_append] at hlast
  rw [join, hq, if_neg Bool.false_ne_true, if_neg hopen]

/-- The excludes of a root are three names below it. -/
theorem join_excludes (h : p.isAbsolute) :
    (p.child .git).join (.ofString "info/exclude") = p.descend [.git, .info, .exclude] := by
  have hinfo : ((p.child .git).child .info).bytes = (p.child .git).bytes ++ slash :: Name.info.bytes :=
    congrArg bytes (join_child h .git (isAbsolute_name .info))
  have hexclude := join_child (isAbsolute_child h .git) .info (isAbsolute_name .exclude)
  have hwords : (Path.ofString "info/exclude").bytes = Name.info.bytes ++ slash :: Name.exclude.bytes := by
    decide
  calc (p.child .git).join (.ofString "info/exclude")
      = ⟨(p.child .git).bytes ++ slash :: (Name.info.bytes ++ slash :: Name.exclude.bytes)⟩ := by
        rw [join_child h .git (by decide), hwords]
    _ = ⟨((p.child .git).child .info).bytes ++ slash :: Name.exclude.bytes⟩ := by
        rw [hinfo, List.append_assoc, List.cons_append]
    _ = p.descend [.git, .info, .exclude] := hexclude.symm

end Path

namespace Place

variable {place other : Place} {root p : Path} {names : List Name}

/-- The names lead to something strictly inside a directory below the root that holds an entry `.git`
in both places. -/
def InsideNested (place other : Place) (root : Path) (names : List Name) : Prop :=
  ∃ part, part ≠ [] ∧ part <+: names ∧ part ≠ names ∧
    place.exists? ((root.descend part).child .git) ∧ other.exists? ((root.descend part).child .git)

/-- In both places the root holds the same but for what is inside other repositories below it, and
there are no links. The root is that of a repository, with a directory `.git`. -/
structure AlikeBelow (place other : Place) (root : Path) : Prop where
  linkFree : place.LinkFreeBelow root
  linkFree_other : other.LinkFreeBelow root
  gitDir : ∃ inside, place.below? root [.git] = some (.dir inside)
  same : ∀ names, ¬place.InsideNested other root names → place.SameBelow other root names

/-- In both places the current directory is the same, and so are the settings that say where the
user's own rules are, and the file that they name. -/
structure SharesRules (place other : Place) : Prop where
  cwd : other.cwd = place.cwd
  currentDir : other.currentDir? = place.currentDir?
  home : other.home = place.home
  configHome : other.configHome = place.configHome
  gitconfig : other.read (place.home.join (.ofString ".gitconfig")) =
    place.read (place.home.join (.ofString ".gitconfig"))
  config : other.read ((Rule.configHome place).join (.ofString "git/config")) =
    place.read ((Rule.configHome place).join (.ofString "git/config"))
  rules : other.read (Rule.sharedFile place) = place.read (Rule.sharedFile place)

theorem InsideNested.symm (h : place.InsideNested other root names) :
    other.InsideNested place root names := by
  obtain ⟨part, hne, hpart, hproper, hhere, hthere⟩ := h
  exact ⟨part, hne, hpart, hproper, hthere, hhere⟩

/-- A single name is inside nothing but the root. -/
theorem not_insideNested_singleton (n : Name) : ¬place.InsideNested other root [n] := by
  rintro ⟨part, hne, hpart, hproper, -⟩
  exact hproper (hpart.eq_of_length (Nat.le_antisymm hpart.length_le (List.length_pos_iff.mpr hne)))

theorem AlikeBelow.symm (h : place.AlikeBelow other root) : other.AlikeBelow place root := by
  obtain ⟨inside, hinside⟩ := h.gitDir
  have hsame := h.same [.git] (not_insideNested_singleton .git)
  rw [SameBelow, hinside, Option.map_some, Option.map_eq_some_iff] at hsame
  obtain ⟨e, he, hsurface⟩ := hsame
  obtain ⟨within, rfl⟩ := Entry.outline_eq_dir (Entry.outline_eq_of_surface_eq hsurface)
  exact ⟨h.linkFree_other, h.linkFree, ⟨within, he⟩,
    fun names hnames => (h.same names (mt InsideNested.symm hnames)).symm⟩

/-- A path leads to a file when that can be read. -/
theorem isFile_eq (place : Place) (p : Path) : place.isFile p = (place.read p).isOk := by
  unfold isFile read FileSystem.read find? FileSystem.find?
  cases place.files.resolve place.cwd p with
  | error fault => rfl
  | ok found =>
    simp only [FileSystem.ok_bind]
    cases place.files.entry? found with
    | none => rfl
    | some e => cases e <;> rfl

theorem SharesRules.namedBy?_eq (h : place.SharesRules other)
    (hread : other.read p = place.read p) : Rule.namedBy? other p = Rule.namedBy? place p := by
  have hexpand : Rule.expandHome other = Rule.expandHome place := by
    unfold Rule.expandHome
    rw [h.home]
  unfold Rule.namedBy?
  rw [hread, hexpand]

/-- The same file is named for the user's own rules. -/
theorem SharesRules.sharedFile_eq (h : place.SharesRules other) :
    Rule.sharedFile other = Rule.sharedFile place := by
  have hconfig : Rule.configHome other = Rule.configHome place := by
    unfold Rule.configHome
    rw [h.configHome, h.home]
  unfold Rule.sharedFile
  rw [hconfig, h.home, h.namedBy?_eq h.gitconfig, h.namedBy?_eq h.config]

/-- The user's own rules are the same. -/
theorem SharesRules.sharedRules_eq (h : place.SharesRules other) :
    Rule.sharedRules other = Rule.sharedRules place := by
  unfold Rule.sharedRules
  simp only [h.currentDir, h.sharedFile_eq, isFile_eq, readOrNothing, h.rules]

/-- Behind a name that is no link the bytes are those of the entry. -/
theorem bytesIn_eq {location : Location} {inside : Listing} {n : Name}
    (h : ∀ target, inside.find? n ≠ some (.link target)) :
    place.bytesIn location inside n = ((inside.find? n).map Entry.bytes).getD [] := by
  unfold bytesIn
  cases hfind : inside.find? n with
  | none => rfl
  | some e =>
    cases e with
    | link target => exact absurd hfind (h target)
    | file _ | dir _ => rfl

theorem presentIn_eq {location : Location} {inside : Listing} {n : Name}
    (h : ∀ target, inside.find? n ≠ some (.link target)) :
    place.presentIn location inside n = (inside.find? n).isSome := by
  unfold presentIn
  cases hfind : inside.find? n with
  | none => rfl
  | some e =>
    cases e with
    | link target => exact absurd hfind (h target)
    | file _ | dir _ => rfl

end Place

/-! ## The rules of a directory -/

/-- A directory looks the same in both places, and there are no links in it. -/
structure Listing.Same (inside other : Listing) : Prop where
  linkFree : ∀ n target, inside.find? n ≠ some (.link target)
  linkFree_other : ∀ n target, other.find? n ≠ some (.link target)
  same : ∀ n, (other.find? n).map Entry.surface = (inside.find? n).map Entry.surface

namespace Listing.Same

variable {inside within : Listing} {place other : Place} {location location' : Location}

theorem bytesIn_eq (h : inside.Same within) (n : Name) :
    other.bytesIn location' within n = place.bytesIn location inside n := by
  rw [Place.bytesIn_eq (h.linkFree_other n), Place.bytesIn_eq (h.linkFree n),
    Entry.map_congr_of_surface Entry.bytes_surface (h.same n)]

theorem presentIn_eq (h : inside.Same within) (n : Name) :
    other.presentIn location' within n = place.presentIn location inside n := by
  rw [Place.presentIn_eq (h.linkFree_other n), Place.presentIn_eq (h.linkFree n),
    ← Option.isSome_map (f := Entry.surface), h.same, Option.isSome_map]

/-- It brings the same rules along. -/
theorem frameOf_eq (h : inside.Same within) (settings : TrackerSettings) (p : Path) :
    Chain.frameOf other settings p location' within =
      Chain.frameOf place settings p location inside := by
  unfold Chain.frameOf
  rw [h.bytesIn_eq, h.presentIn_eq]

/-- So does a root, where the excludes are the same. -/
theorem rootFrame_eq (h : inside.Same within) (settings : TrackerSettings) (p : Path)
    (hexcludes : Rule.excludes other p = Rule.excludes place p) :
    Chain.rootFrame other settings p location' within =
      Chain.rootFrame place settings p location inside := by
  have hframe : Chain.frameOf other settings p location' within =
      Chain.frameOf place settings p location inside := h.frameOf_eq settings p
  have hgit : other.presentIn location' within .git = place.presentIn location inside .git :=
    h.presentIn_eq .git
  unfold Chain.rootFrame
  rw [hframe, hgit, hexcludes]

end Listing.Same

namespace Scan.Job

variable {job other : Job} {names dir : List Name} {inside within : Listing}

/-- The entries of the root are those below it. -/
theorem entry?_inside (job : Job) (names : List Name) :
    job.inside.entry? names = job.place.below? job.root names := by
  rw [Place.below?_eq job.resolved, FileSystem.entry?_append job.listed]

/-- The root of both jobs is the same, and holds the same in both places. -/
structure Alike (job other : Job) : Prop where
  absolute : job.root.isAbsolute
  root : other.root = job.root
  below : job.place.AlikeBelow other.place job.root

theorem Alike.symm (h : job.Alike other) : other.Alike job :=
  ⟨h.root ▸ h.absolute, h.root.symm, h.root ▸ h.below.symm⟩

/-- Where nothing above an entry is another repository, the entry looks the same in both places. -/
theorem Alike.sameBelow (h : job.Alike other)
    (hbare : ∀ part, part ≠ [] → part <+: names → part ≠ names →
      job.place.exists? ((job.path part).child .git) = false) :
    job.place.SameBelow other.place job.root names := by
  apply h.below.same
  rintro ⟨part, hne, hpart, hproper, hhere, -⟩
  have hno := hbare part hne hpart hproper
  rw [path, hhere] at hno
  cases hno

/-- So does every entry of the root and of a scanned directory. -/
theorem Alike.sameBelow_concat (h : job.Alike other) (hdir : dir = [] ∨ job.Scanned dir) (n : Name) :
    job.place.SameBelow other.place job.root (dir ++ [n]) := by
  apply h.sameBelow
  intro part hne hpart hproper
  have habove := (List.prefix_concat_iff.mp hpart).resolve_left hproper
  rcases hdir with rfl | hscan
  · exact absurd (List.prefix_nil.mp habove) hne
  · exact hscan.bare part hne habove

/-- What is scanned in one place is scanned in the other. -/
theorem Alike.scanned (h : job.Alike other) (hscan : job.Scanned names) : other.Scanned names := by
  have hsame := h.sameBelow fun part hne hpart _ => hscan.bare part hne hpart
  constructor
  case below => exact hscan.below
  case unnamed => exact hscan.unnamed
  case present =>
    have hpresent := hscan.present
    rw [entry?_inside, ← Option.isSome_map (f := Entry.surface)] at hpresent ⊢
    rw [h.root, hsame, hpresent]
  case bare =>
    intro part hne hpart
    have hpath : (other.path part).child .git = job.root.descend (part ++ [.git]) := by
      rw [path, h.root, Path.descend_append]
      rfl
    have hscanned := hscan.of_prefix hne hpart
    rw [hpath, (h.sameBelow_concat (.inr hscanned) .git).exists?_eq h.absolute h.below.linkFree
      h.below.linkFree_other, Path.descend_append]
    exact hscan.bare part hne hpart

/-- A directory that is scanned, or the root, looks the same in both places. -/
theorem Alike.same (h : job.Alike other) (hdir : dir = [] ∨ job.Scanned dir)
    (hinside : job.inside.descend dir = some inside)
    (hwithin : other.inside.descend dir = some within) : inside.Same within := by
  have hhere (n : Name) : inside.find? n = job.place.below? job.root (dir ++ [n]) := by
    rw [← entry?_inside, Listing.entry?_append hinside, Listing.entry?_singleton]
  have hthere (n : Name) : within.find? n = other.place.below? job.root (dir ++ [n]) := by
    rw [← h.root, ← entry?_inside, Listing.entry?_append hwithin, Listing.entry?_singleton]
  constructor
  case linkFree =>
    intro n target
    rw [hhere]
    exact h.below.linkFree _ target
  case linkFree_other =>
    intro n target
    rw [hthere]
    exact h.below.linkFree_other _ target
  case same =>
    intro n
    rw [hhere, hthere]
    exact h.sameBelow_concat hdir n

/-- The root has the same excludes where the file of them is the same. -/
theorem Alike.excludes_eq (h : job.Alike other)
    (hexcludes : job.place.SameBelow other.place job.root [.git, .info, .exclude]) :
    Rule.excludes other.place job.root = Rule.excludes job.place job.root := by
  have hdir {place : Place} (hfree : place.LinkFreeBelow job.root)
      (hgit : ∃ inside, place.below? job.root [.git] = some (.dir inside)) :
      Rule.excludesDir? place job.root = some (job.root.child .git) := by
    obtain ⟨inside, hinside⟩ := hgit
    have hfind : place.find? (job.root.child .git) = some (.dir inside) :=
      (Place.find?_descend_iff h.absolute hfree).mpr ⟨hinside, by simp [Name.legal_git]⟩
    have hfile : place.isFile (job.root.child .git) = false := by
      rw [Place.isFile, hfind]
    simp only [Rule.excludesDir?, hfile, Bool.false_eq_true, if_false]
  have hread := hexcludes.readOrNothing_eq h.absolute h.below.linkFree h.below.linkFree_other
  rw [Rule.excludes, Rule.excludes, hdir h.below.linkFree h.below.gitDir,
    hdir h.below.linkFree_other h.below.symm.gitDir]
  simp only [Path.join_excludes h.absolute, hread]

/-- The rules that a directory brings along are the same. -/
theorem Alike.frameAt_eq (h : job.Alike other) (hsettings : other.settings = job.settings)
    (hexcludes : job.place.SameBelow other.place job.root [.git, .info, .exclude])
    (hdir : dir = [] ∨ job.Scanned dir) (hinside : job.inside.descend dir = some inside)
    (hwithin : other.inside.descend dir = some within) : other.frameAt dir = job.frameAt dir := by
  have hsame := h.same hdir hinside hwithin
  cases dir with
  | nil =>
    cases hinside
    cases hwithin
    rw [frameAt, frameAt, hsettings, h.root]
    exact hsame.rootFrame_eq _ _ (h.excludes_eq hexcludes)
  | cons n names =>
    rw [frameAt, frameAt, hinside, hwithin, hsettings, path, path, h.root]
    exact hsame.frameOf_eq _ _

/-- The frames for a scanned entry are the same. -/
theorem Alike.frames_eq (h : job.Alike other) (hsettings : other.settings = job.settings)
    (hexcludes : job.place.SameBelow other.place job.root [.git, .info, .exclude])
    (hscan : job.Scanned names) :
    (other.rulesAt names.dropLast).frames = (job.rulesAt names.dropLast).frames := by
  obtain ⟨front, n, rfl⟩ := (List.eq_nil_or_concat' names).resolve_left hscan.below
  rw [List.dropLast_concat]
  apply List.map_congr_left
  intro dir hmem
  rw [List.mem_reverse, List.mem_inits] at hmem
  -- A directory on the way to the entry is one in both places.
  obtain ⟨rest, rfl⟩ := hmem
  rw [List.append_assoc] at hscan
  have hne : rest ++ [n] ≠ [] := by simp
  obtain ⟨inside, hinside⟩ := Listing.exists_descend_of_entry? hne hscan.present
  obtain ⟨within, hwithin⟩ := Listing.exists_descend_of_entry? hne (h.scanned hscan).present
  refine h.frameAt_eq hsettings hexcludes ?_ hinside hwithin
  by_cases hnil : dir = []
  · exact .inl hnil
  · exact .inr (hscan.of_prefix hnil (List.prefix_append dir _))

/-- Below a root with a directory `.git` the rules count as soon as they are read. Whether there is a
repository around the root does not matter. -/
theorem inRepository_eq_active
    (hgit : ∃ inside, job.place.below? job.root [.git] = some (.dir inside)) (dir : List Name) :
    (job.rulesAt dir).inRepository = Chain.active job.settings := by
  cases hactive : Chain.active job.settings with
  | false => exact inRepository_of_inactive hactive dir
  | true =>
    obtain ⟨inside, hinside⟩ := hgit
    rw [← entry?_inside, Listing.entry?_singleton] at hinside
    have hpresent : job.place.presentIn job.location job.inside .git = true := by
      rw [Place.presentIn, hinside]
    have hroot : (job.frameAt []).boundary = true := by
      rw [frameAt, Chain.rootFrame, hactive, hpresent, Bool.and_self, Bool.or_true]
    exact inRepository_rulesAt_iff.mpr (.inl ⟨[], List.nil_prefix, hroot⟩)

/-- What the rules say of a scanned entry is the same. -/
theorem Alike.ignoresAt_eq (h : job.Alike other) (hsettings : other.settings = job.settings)
    (hexcludes : job.place.SameBelow other.place job.root [.git, .info, .exclude])
    (hshared : job.place.SharesRules other.place) (hscan : job.Scanned names) :
    other.ignoresAt names = job.ignoresAt names := by
  have hdir : other.isDirAt names = job.isDirAt names := by
    have hsame := h.sameBelow fun part hne hpart _ => hscan.bare part hne hpart
    have hsurface (e : Option Entry) : e.any Entry.isDir = (e.map Entry.surface).any Entry.isDir := by
      cases e <;> simp
    rw [isDirAt, isDirAt, entry?_inside, entry?_inside, h.root, hsurface, hsame, ← hsurface]
  have hframes := h.frames_eq hsettings hexcludes hscan
  have hrules : (other.rulesAt names.dropLast).shared = (job.rulesAt names.dropLast).shared ∧
      (other.rulesAt names.dropLast).sharedBase = (job.rulesAt names.dropLast).sharedBase := by
    simp only [rulesAt, rules, Chain.ofRoot, hsettings, hshared.sharedRules_eq, hshared.cwd, and_self]
  have hcounts : (other.rulesAt names.dropLast).inRepository =
      (job.rulesAt names.dropLast).inRepository := by
    rw [inRepository_eq_active h.symm.below.gitDir, inRepository_eq_active h.below.gitDir, hsettings]
  have hpath : other.path names = job.path names := by rw [path, path, h.root]
  simp only [ignoresAt, ignores, Chain.ignores, Chain.verdict?, hdir, hframes, hrules, hcounts, hpath]

/-- The same entries are recorded. -/
theorem Alike.records (h : job.Alike other) (hsettings : other.settings = job.settings)
    (hignores : ∀ names, job.Scanned names → other.ignoresAt names = job.ignoresAt names)
    (hrecords : job.Records names) : other.Records names := by
  rcases hrecords with htop | ⟨rfl, hask, hthere⟩
  · refine .inl ⟨h.scanned htop.scanned, ?_, ?_⟩
    · rw [hignores names htop.scanned]
      exact htop.ignored
    · intro part hne hpart hproper
      rw [hignores part (htop.scanned.of_prefix hne hpart)]
      exact htop.free part hne hpart hproper
  · refine .inr ⟨rfl, hsettings ▸ hask, ?_⟩
    have hsame := h.below.same [.git] (Place.not_insideNested_singleton .git)
    rw [h.root]
    exact (hsame.exists?_eq h.absolute h.below.linkFree h.below.linkFree_other).trans hthere

/-- The same paths are recorded. -/
theorem Alike.contains_recorded_eq (h : job.Alike other) (hsettings : other.settings = job.settings)
    (hexcludes : job.place.SameBelow other.place job.root [.git, .info, .exclude])
    (hshared : job.place.SharesRules other.place) (c : List Component) :
    other.recorded.contains c = job.recorded.contains c := by
  have hignores (names : List Name) (hscan : job.Scanned names) :
      other.ignoresAt names = job.ignoresAt names :=
    h.ignoresAt_eq hsettings hexcludes hshared hscan
  have hback (names : List Name) (hscan : other.Scanned names) :
      job.ignoresAt names = other.ignoresAt names :=
    (hignores names (h.symm.scanned hscan)).symm
  rw [Bool.eq_iff_iff, contains_recorded h.absolute, contains_recorded h.symm.absolute]
  have hpath (names : List Name) : other.path names = job.path names := by rw [path, path, h.root]
  simp only [hpath]
  refine exists_congr fun names => and_congr_left fun _ => ⟨?_, ?_⟩
  · exact h.symm.records hsettings.symm hback
  · exact h.records hsettings hignores

end Scan.Job

namespace Tracker

variable {place other : Place} {tracker : Tracker}

/-- A root that is that of a repository with a directory `.git` can be scanned. -/
theorem rescan_of_gitDir (h : ∃ inside, place.below? tracker.root [.git] = some (.dir inside)) :
    ∃ job, Scan.Job.of? place tracker.settings tracker.root = some job ∧
      tracker.rescan place = (.ok (), { tracker with recorded := job.recorded, busy := false }) := by
  obtain ⟨inside, hinside⟩ := h
  obtain ⟨location, hlocation⟩ := Place.exists_resolve_of_below? hinside
  rw [Place.below?_eq hlocation] at hinside
  obtain ⟨within, hwithin⟩ := FileSystem.exists_listing?_of_entry? (List.cons_ne_nil _ _) hinside
  obtain ⟨job, hjob⟩ := Scan.exists_job_iff.mpr (Place.isDir_iff.mpr ⟨location, within, hlocation, hwithin⟩)
  refine ⟨job, hjob, ?_⟩
  rw [rescan, Scan.record_eq_ok hjob]

/-- Scans of a root succeed and record the same paths in two places that differ outside it, and inside
other repositories below it. -/
theorem rescan_isolated (hroot : tracker.root.isAbsolute)
    (hbelow : place.AlikeBelow other tracker.root)
    (hexcludes : place.SameBelow other tracker.root [.git, .info, .exclude])
    (hshared : place.SharesRules other) :
    (tracker.rescan place).1 = .ok () ∧ (tracker.rescan other).1 = .ok () ∧
      ∀ c, (tracker.rescan other).2.recorded.contains c =
        (tracker.rescan place).2.recorded.contains c := by
  obtain ⟨job, hjob, hhere⟩ := rescan_of_gitDir hbelow.gitDir
  obtain ⟨job', hjob', hthere⟩ := rescan_of_gitDir hbelow.symm.gitDir
  rw [hhere, hthere]
  refine ⟨rfl, rfl, fun c => ?_⟩
  obtain ⟨rfl, hsettings, hsame⟩ := Scan.Job.of?_eq_some hjob
  obtain ⟨rfl, hsettings', hsame'⟩ := Scan.Job.of?_eq_some hjob'
  rw [← hsame] at hroot hbelow hexcludes
  have halike : job.Alike job' := ⟨hroot, hsame'.trans hsame.symm, hbelow⟩
  exact halike.contains_recorded_eq (hsettings'.trans hsettings.symm) hexcludes hshared c

/-! ## A repository in a repository -/

/-- A repository `/glen` with the repository `/glen/dell` in it. Its directory `.git` holds an entry
`.git` too. -/
def glenPlace : Place where
  files :=
    { top := .dir (.spell "glen")
        (.dir .git
            (.dir .git .empty <|
              .dir .info (.file .exclude (.literal (Utf8.encode "fern")) .empty) .empty) <|
          .dir (.spell "dell") (.dir .git .empty .empty) <|
          .file (.spell "fern") (.literal []) .empty) .empty
      distinct := by decide +kernel }
  cwd := []
  home := .ofString "/home"

/-- The tracker of that repository. -/
def glenTracker : Tracker := ⟨.ofString "/glen", {}, .empty, false⟩

/-- A place is compared with `glenPlace` entry by entry. -/
theorem alikeBelow_glenPlace (hfree : other.files.top.linkFree)
    (hroot : other.files.resolve other.cwd glenTracker.root = .ok [.spell "glen"])
    (hsame : ∀ names, ¬glenPlace.InsideNested other glenTracker.root names →
      (other.files.entry? ([.spell "glen"] ++ names)).map Entry.surface =
        (glenPlace.files.entry? ([.spell "glen"] ++ names)).map Entry.surface) :
    glenPlace.AlikeBelow other glenTracker.root := by
  have hhere : glenPlace.files.resolve glenPlace.cwd glenTracker.root = .ok [.spell "glen"] := by
    decide +kernel
  constructor
  case linkFree => exact Place.linkFreeBelow_of_linkFree (by decide +kernel) _
  case linkFree_other => exact Place.linkFreeBelow_of_linkFree hfree _
  case gitDir =>
    refine ⟨.dir .git .empty <|
      .dir .info (.file .exclude (.literal (Utf8.encode "fern")) .empty) .empty, ?_⟩
    decide +kernel
  case same =>
    intro names hnames
    rw [Place.SameBelow, Place.below?_eq hhere, Place.below?_eq hroot]
    exact hsame names hnames

/-- A rule around the root, and one in the repository below it. -/
def ruledGlenPlace : Place :=
  (glenPlace.written [] .gitignore "fern").written [.spell "glen", .spell "dell"] .gitignore "/**"

/-- The scan does not see them. -/
theorem rescan_isolated_glenPlace :
    glenPlace.AlikeBelow ruledGlenPlace glenTracker.root ∧
      ∀ c, (glenTracker.rescan ruledGlenPlace).2.recorded.contains c =
        (glenTracker.rescan glenPlace).2.recorded.contains c := by
  have halike : glenPlace.AlikeBelow ruledGlenPlace glenTracker.root := by
    refine alikeBelow_glenPlace (by decide +kernel) (by decide +kernel) ?_
    intro names hnames
    have hinner : [Name.spell "glen"] ++ names ≠ [.spell "glen", .spell "dell"] ++ [.gitignore] := by
      intro heq
      obtain rfl : names = [.spell "dell", .gitignore] := List.append_cancel_left heq
      refine hnames ⟨[.spell "dell"], ?_⟩
      decide +kernel
    have houter : [Name.spell "glen"] ++ names ≠ [] ++ [.gitignore] := by
      intro heq
      exact absurd (List.cons.inj heq).1 (by decide +kernel)
    calc (ruledGlenPlace.files.entry? ([.spell "glen"] ++ names)).map Entry.surface
        = (FileSystem.entry? (glenPlace.written [] .gitignore "fern").files _).map Entry.surface :=
          Place.surface_written (by decide +kernel) (by decide +kernel) hinner
      _ = (glenPlace.files.entry? ([.spell "glen"] ++ names)).map Entry.surface :=
          Place.surface_written (by decide +kernel) (by decide +kernel) houter
  have hexcludes : glenPlace.SameBelow ruledGlenPlace glenTracker.root [.git, .info, .exclude] := by
    unfold Place.SameBelow
    decide +kernel
  have hshared : glenPlace.SharesRules ruledGlenPlace := by constructor <;> decide +kernel
  exact ⟨halike, (rescan_isolated (by decide +kernel) halike hexcludes hshared).2.2⟩

/-- The excludes of the root, emptied. -/
def bareGlenPlace : Place := glenPlace.written [.spell "glen", .git, .info] .exclude ""

/-- They are inside a directory that holds an entry `.git`, and still the scan sees them. -/
theorem exposed_in_glenPlace :
    glenPlace.AlikeBelow bareGlenPlace glenTracker.root ∧ glenPlace.SharesRules bareGlenPlace ∧
      (glenTracker.rescan glenPlace).2.recorded.contains (Path.ofString "/glen/fern").components ∧
      ¬(glenTracker.rescan bareGlenPlace).2.recorded.contains
        (Path.ofString "/glen/fern").components := by
  refine ⟨alikeBelow_glenPlace (by decide +kernel) (by decide +kernel) ?_, ?_, ?_, ?_⟩
  · intro names hnames
    refine Place.surface_written (by decide +kernel) (by decide +kernel) ?_
    intro heq
    obtain rfl : names = [.git, .info, .exclude] := List.append_cancel_left heq
    refine hnames ⟨[.git], ?_⟩
    decide +kernel
  · constructor <;> decide +kernel
  · decide +kernel
  · decide +kernel

end Tracker

end IgnoreAtlas
