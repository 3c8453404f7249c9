import IgnoreAtlas.Discovery
import IgnoreAtlas.Proofs.FileSystem.Entries
import IgnoreAtlas.Proofs.Path.Components
import IgnoreAtlas.Proofs.Repository.Routing
import Mathlib.Logic.Relation

/-!
# What a search finds

A search goes from one stand to the next, into directories and through links; `Goes` is one such
step. A root is found when it opens as a repository with files at some stand that these steps lead
to (`mem_rootsFrom_iff`).

The search itself counts how many links may still be inside one another, and that count is never
the reason to stop: a link leads to a directory that the search is not inside of, so each one leaves
one directory less to go to (`rest_lt_of_through`).
-/

namespace IgnoreAtlas

/-! ## The directories of a tree -/

namespace Listing

/-- The locations of the directories below this one. -/
def locations : Listing → List Location
  | empty => []
  | file _ _ rest => rest.locations
  | link _ _ rest => rest.locations
  | dir n inside rest => ([] :: inside.locations).map (n :: ·) ++ rest.locations

theorem length_locations (l : Listing) : l.locations.length = l.countDirs := by
  induction l with
  | empty => rfl
  | file _ _ rest ih | link _ _ rest ih => exact ih
  | dir n inside rest ihIn ih =>
    simp only [locations, countDirs, List.length_append, List.length_map, List.length_cons, ihIn, ih]
    omega

/-- Every directory below is among them. -/
theorem mem_locations {l : Listing} {location : Location} (h : (l.descend location).isSome)
    (hne : location ≠ []) : location ∈ l.locations := by
  induction l generalizing location with
  | empty =>
    cases location with
    | nil => exact absurd rfl hne
    | cons n names => cases h
  | file k _ rest ih | link k _ rest ih =>
    cases location with
    | nil => exact absurd rfl hne
    | cons n names =>
      rw [descend, find?] at h
      by_cases hk : k = n
      · rw [if_pos hk] at h
        cases h
      · rw [if_neg hk] at h
        exact ih (by rw [descend]; exact h) (List.cons_ne_nil n names)
  | dir k inside rest ihIn ih =>
    cases location with
    | nil => exact absurd rfl hne
    | cons n names =>
      rw [descend, find?] at h
      by_cases hk : k = n
      · rw [if_pos hk] at h
        refine List.mem_append_left _ (List.mem_map.mpr ⟨names, ?_, by rw [hk]⟩)
        by_cases hnil : names = []
        · exact hnil ▸ List.mem_cons_self
        · exact List.mem_cons_of_mem _ (ihIn h hnil)
      · rw [if_neg hk] at h
        exact List.mem_append_right _ (ih (by rw [descend]; exact h) (List.cons_ne_nil n names))

/-- What is in a listing is smaller. -/
theorem sizeOf_lt_of_find? {l inside : Listing} {n : Name} (h : l.find? n = some (.dir inside)) :
    sizeOf inside < sizeOf l := by
  induction l with
  | empty => cases h
  | file k _ rest ih | link k _ rest ih =>
    rw [find?] at h
    split at h
    · cases h
    · have := ih h
      simp only [file.sizeOf_spec, link.sizeOf_spec]
      omega
  | dir k _ rest _ ih =>
    rw [find?] at h
    split at h
    · cases h
      simp only [dir.sizeOf_spec]
      omega
    · have := ih h
      simp only [dir.sizeOf_spec]
      omega

end Listing

namespace Discovery

variable {place : Place} {settings : DiscoverySettings} {stand next : Stand} {root : Path}

/-! ## Steps -/

/-- A step of the search: into a directory, or through a link to one. -/
inductive Goes (place : Place) (settings : DiscoverySettings) : Stand → Stand → Prop
  | into {stand next : Stand} {l inside : Listing} {n : Name} :
      place.files.listing? stand.location = some l → l.find? n = some (.dir inside) →
      stand.into? settings n = some next → Goes place settings stand next
  | through {stand next : Stand} {l inside : Listing} {n : Name} {target : Path} :
      place.files.listing? stand.location = some l → l.find? n = some (.link target) →
      stand.through? place settings n = some (next, inside) → Goes place settings stand next

/-- What a step into a directory takes, and where it leads. -/
theorem into?_eq_some_iff {n : Name} :
    stand.into? settings n = some next ↔
      skips settings n = false ∧ ∃ levels, below stand.levels = some levels ∧
        next = stand.enter n (stand.location ++ [n]) levels := by
  unfold Stand.into?
  split
  · next hskip => simp [hskip]
  · next hskip => simp [hskip, @eq_comm _ next]

/-- What a step through a link takes, and where it leads. -/
theorem through?_eq_some_iff {n : Name} {inside : Listing} :
    stand.through? place settings n = some (next, inside) ↔
      settings.followLinks ∧ skips settings n = false ∧
        ∃ levels location, below stand.levels = some levels ∧
          place.files.resolve place.cwd (.ofLocation (stand.location ++ [n])) = .ok location ∧
          location ∉ stand.location :: stand.above ∧
          place.files.listing? location = some inside ∧
          next = stand.enter n location levels := by
  unfold Stand.through?
  split
  · next hgo =>
    rw [Bool.and_eq_true, Bool.not_eq_true'] at hgo
    split
    · next levels location hlevels hresolve =>
      split
      · next hin =>
        refine ⟨nofun, fun ⟨_, _, levels', location', _, hresolve', hout, _⟩ => absurd hin ?_⟩
        rw [hresolve] at hresolve'
        exact Except.ok.inj hresolve' ▸ hout
      · next hout =>
        rw [hlevels, hresolve, Option.map_eq_some_iff]
        constructor
        · rintro ⟨m, hm, heq⟩
          cases heq
          exact ⟨hgo.1, hgo.2, levels, location, rfl, rfl, hout, hm, rfl⟩
        · rintro ⟨-, -, _, _, hl, hr, -, hm, rfl⟩
          cases hl
          cases hr
          exact ⟨inside, hm, rfl⟩
    · next hno =>
      refine ⟨nofun, fun ⟨_, _, levels, location, hlevels, hresolve, _⟩ => ?_⟩
      exact absurd hresolve (hno levels location hlevels)
  · next hgo =>
    refine ⟨nofun, fun ⟨hfollow, hskip, _⟩ => absurd ?_ hgo⟩
    rw [hfollow, hskip]
    rfl

/-- A step into a directory leads to what is in it. -/
theorem listing_of_into {l inside : Listing} {n : Name}
    (hl : place.files.listing? stand.location = some l) (hfind : l.find? n = some (.dir inside))
    (h : stand.into? settings n = some next) :
    place.files.listing? next.location = some inside := by
  obtain ⟨-, levels, -, rfl⟩ := into?_eq_some_iff.mp h
  rw [FileSystem.listing?] at hl
  rw [Stand.enter, FileSystem.listing?, Listing.descend_append, hl, Option.bind_some,
    Listing.descend_singleton.mpr hfind]

/-- A step through a link leads to what is behind it. -/
theorem listing_of_through {n : Name} {inside : Listing}
    (h : stand.through? place settings n = some (next, inside)) :
    place.files.listing? next.location = some inside := by
  obtain ⟨-, -, levels, location, -, -, -, hin, rfl⟩ := through?_eq_some_iff.mp h
  exact hin

/-- A step goes on by one name. -/
theorem Goes.exists_path (h : Goes place settings stand next) :
    ∃ n, next.path = stand.path.child n := by
  cases h with
  | @into _ _ n _ _ hinto =>
    obtain ⟨-, levels, -, rfl⟩ := into?_eq_some_iff.mp hinto
    exact ⟨n, rfl⟩
  | @through _ _ n _ _ _ hthrough =>
    obtain ⟨-, -, levels, location, -, -, -, -, rfl⟩ := through?_eq_some_iff.mp hthrough
    exact ⟨n, rfl⟩

/-! ## The links that are left -/

/-- The directories of the tree that the search is not inside of. -/
def outside (place : Place) (inside : List Location) : List Location :=
  ([] :: place.files.top.locations).filter fun location => !inside.contains location

/-- How many directories the search is not inside of. -/
def rest (place : Place) (stand : Stand) : Nat :=
  (outside place (stand.location :: stand.above)).length

/-- Going into a directory leaves no more of them. -/
theorem rest_le_of_into {n : Name} (h : stand.into? settings n = some next) :
    rest place next ≤ rest place stand := by
  obtain ⟨-, levels, -, rfl⟩ := into?_eq_some_iff.mp h
  refine (List.monotone_filter_right _ fun location hout => ?_).length_le
  rw [Bool.not_eq_true', Bool.eq_false_iff, ne_eq, List.contains_iff_mem] at hout ⊢
  exact fun hin => hout (List.mem_cons_of_mem _ hin)

/-- Going through a link leaves one less. -/
theorem rest_lt_of_through {n : Name} {inside : Listing}
    (h : stand.through? place settings n = some (next, inside)) :
    rest place next < rest place stand := by
  obtain ⟨-, -, levels, location, -, -, hout, hin, rfl⟩ := through?_eq_some_iff.mp h
  have hfewer : outside place (location :: stand.location :: stand.above) =
      (outside place (stand.location :: stand.above)).filter (· ≠ location) := by
    rw [outside, outside, List.filter_filter]
    refine List.filter_congr fun a _ => ?_
    by_cases ha : a = location <;> simp [ha]
  have hmem : location ∈ [] :: place.files.top.locations := by
    by_cases hnil : location = []
    · exact hnil ▸ List.mem_cons_self
    · refine List.mem_cons_of_mem _ (Listing.mem_locations ?_ hnil)
      rw [FileSystem.listing?] at hin
      rw [hin]
      rfl
  calc rest place (stand.enter n location levels)
      = ((outside place (stand.location :: stand.above)).filter (· ≠ location)).length :=
        congrArg List.length hfewer
    _ < rest place stand := by
      refine List.length_filter_lt_length_iff_exists.mpr ⟨location, ?_, by simp⟩
      exact List.mem_filter.mpr ⟨hmem, by simpa using hout⟩

/-! ## What is found -/

/-- The root is found when the search goes on from an entry: there, or further down. -/
def FoundBehind (place : Place) (settings : DiscoverySettings)
    (jump : Stand → Listing → List Path) (stand : Stand) (root : Path) (n : Name) : Entry → Prop
  | .file _ => False
  | .link _ => ∃ next inside, stand.through? place settings n = some (next, inside) ∧
      (root ∈ ownRoot place next.path ∨ root ∈ jump next inside)
  | .dir inside => ∃ next, stand.into? settings n = some next ∧
      (root ∈ ownRoot place next.path ∨ root ∈ rootsWith place settings jump next inside)

/-- A root below a directory is found behind an entry of it. -/
theorem mem_rootsWith_iff {jump : Stand → Listing → List Path} {l : Listing} (hl : l.Distinct) :
    root ∈ rootsWith place settings jump stand l ↔
      ∃ n e, l.find? n = some e ∧ FoundBehind place settings jump stand root n e := by
  induction l with
  | empty => exact ⟨nofun, fun ⟨_, _, h, _⟩ => nomatch h⟩
  | file n content rest ih =>
    refine Iff.trans ?_ (Listing.exists_find?_cons_iff (e := .file content) hl.1).symm
    rw [rootsWith, ih hl.2, FoundBehind, false_or]
  | link n target rest ih =>
    refine Iff.trans ?_ (Listing.exists_find?_cons_iff (e := .link target) hl.1).symm
    rw [rootsWith, List.mem_append, ih hl.2]
    refine or_congr_left ?_
    unfold FoundBehind
    split
    · next next inside h => simp [h]
    · next h => simp [h]
  | dir n inside rest _ ih =>
    refine Iff.trans ?_ (Listing.exists_find?_cons_iff (e := .dir inside) hl.1).symm
    rw [rootsWith, List.mem_append, ih hl.2.2]
    refine or_congr_left ?_
    unfold FoundBehind
    split
    · next next h => simp [h]
    · next h => simp [h]

/-- What the search does behind a link when so many may still be inside one another. -/
def jumps (place : Place) (settings : DiscoverySettings) : Nat → Stand → Listing → List Path
  | 0 => fun _ _ => []
  | links + 1 => roots place settings links

theorem roots_eq (links : Nat) :
    roots place settings links = rootsWith place settings (jumps place settings links) := by
  cases links <;> rfl

theorem mem_ownRoot_iff {dir : Path} :
    root ∈ ownRoot place dir ↔ isRoot place root ∧ root = dir := by
  unfold ownRoot
  split
  · next h => rw [List.mem_singleton]; exact ⟨fun he => ⟨he ▸ h, he⟩, And.right⟩
  · next h => exact ⟨nofun, fun hr => absurd (hr.2 ▸ hr.1) h⟩

/-- What is found at the next stand or below it is a root at a stand further on. -/
theorem exists_transGen_of_found (hstep : Goes place settings stand next)
    (h : root ∈ ownRoot place next.path ∨ isRoot place root ∧
      ∃ last, Relation.TransGen (Goes place settings) next last ∧ root = last.path) :
    isRoot place root ∧
      ∃ last, Relation.TransGen (Goes place settings) stand last ∧ root = last.path := by
  rcases h with hown | ⟨hroot, last, hgoes, heq⟩
  · obtain ⟨hroot, heq⟩ := mem_ownRoot_iff.mp hown
    exact ⟨hroot, next, .single hstep, heq⟩
  · exact ⟨hroot, last, .head hstep hgoes, heq⟩

/-- What is found below a stand is a root at a stand further on. -/
theorem exists_transGen_of_mem_roots {links : Nat} {stand : Stand} {l : Listing}
    (hl : place.files.listing? stand.location = some l)
    (h : root ∈ roots place settings links stand l) :
    isRoot place root ∧
      ∃ last, Relation.TransGen (Goes place settings) stand last ∧ root = last.path := by
  rw [roots_eq, mem_rootsWith_iff (FileSystem.distinct_of_listing? hl)] at h
  obtain ⟨n, e, hfind, hbehind⟩ := h
  cases e with
  | file _ => exact hbehind.elim
  | dir inside =>
    obtain ⟨next, hinto, hfound⟩ := hbehind
    have hstep : Goes place settings stand next := .into hl hfind hinto
    have hsmaller := Listing.sizeOf_lt_of_find? hfind
    refine exists_transGen_of_found hstep (hfound.imp_right fun hbelow => ?_)
    rw [← roots_eq] at hbelow
    exact exists_transGen_of_mem_roots (listing_of_into hl hfind hinto) hbelow
  | link target =>
    obtain ⟨next, inside, hthrough, hfound⟩ := hbehind
    refine exists_transGen_of_found (.through hl hfind hthrough) (hfound.imp_right fun hbelow => ?_)
    cases links with
    | zero => exact absurd hbelow List.not_mem_nil
    | succ links => exact exists_transGen_of_mem_roots (listing_of_through hthrough) hbelow
termination_by (links, sizeOf l)

/-- What is found at the next stand or below it is found below this one, if as many links may be
inside one another as there are directories that the search is not inside of. -/
theorem mem_roots_of_found {links : Nat} {l : Listing} (hstep : Goes place settings stand next)
    (hl : place.files.listing? stand.location = some l) (hlinks : rest place stand ≤ links)
    (h : root ∈ ownRoot place next.path ∨
      ∀ {links : Nat} {inside : Listing}, rest place next ≤ links →
        place.files.listing? next.location = some inside →
        root ∈ roots place settings links next inside) :
    root ∈ roots place settings links stand l := by
  rw [roots_eq, mem_rootsWith_iff (FileSystem.distinct_of_listing? hl)]
  cases hstep with
  | @into l' inside n hl' hfind hinto =>
    obtain rfl : l = l' := Option.some.inj (hl.symm.trans hl')
    refine ⟨n, .dir inside, hfind, next, hinto, h.imp_right fun hbelow => ?_⟩
    rw [← roots_eq]
    exact hbelow (Nat.le_trans (rest_le_of_into hinto) hlinks) (listing_of_into hl hfind hinto)
  | @through l' inside n target hl' hfind hthrough =>
    obtain rfl : l = l' := Option.some.inj (hl.symm.trans hl')
    refine ⟨n, .link target, hfind, next, inside, hthrough, h.imp_right fun hbelow => ?_⟩
    have hless := rest_lt_of_through hthrough
    cases links with
    | zero => omega
    | succ links => exact hbelow (by omega) (listing_of_through hthrough)

/-- A root at a stand further on is found. -/
theorem mem_roots_of_transGen {last : Stand}
    (h : Relation.TransGen (Goes place settings) stand last) (hroot : isRoot place last.path) :
    ∀ {links : Nat} {l : Listing}, rest place stand ≤ links →
      place.files.listing? stand.location = some l →
      last.path ∈ roots place settings links stand l := by
  induction h using Relation.TransGen.head_induction_on with
  | single hstep =>
    intro links l hlinks hl
    exact mem_roots_of_found hstep hl hlinks (.inl (mem_ownRoot_iff.mpr ⟨hroot, rfl⟩))
  | head hstep _ ih =>
    intro links l hlinks hl
    exact mem_roots_of_found hstep hl hlinks (.inr ih)

/-! ## From a starting directory -/

/-- The stand at the start of a search. -/
def Stand.first (settings : DiscoverySettings) (location : Location) : Stand :=
  ⟨.ofLocation location, location, [], settings.maxDepth⟩

/-- The search from a starting directory comes to this stand. -/
def Visits (place : Place) (settings : DiscoverySettings) (start : Path) (stand : Stand) : Prop :=
  ∃ location, place.files.resolve place.cwd start = .ok location ∧
    (place.files.listing? location).isSome ∧
    Relation.ReflTransGen (Goes place settings) (.first settings location) stand

/-- At the start the search is inside of one directory at most. -/
theorem rest_le (place : Place) (stand : Stand) :
    rest place stand ≤ place.files.top.countDirs + 1 := by
  rw [← Listing.length_locations]
  exact List.length_filter_le _ _

/-- A root is found from a starting directory when it opens as a repository with files at a stand
that the search comes to. -/
theorem mem_rootsFrom_iff {start : Path} :
    root ∈ rootsFrom place settings start ↔
      isRoot place root ∧ ∃ stand, Visits place settings start stand ∧ root = stand.path := by
  constructor
  · intro h
    unfold rootsFrom at h
    split at h
    · next location hresolve =>
      split at h
      · next inside hinside =>
        have hsome : (place.files.listing? location).isSome := by rw [hinside]; rfl
        rcases List.mem_append.mp h with hown | hbelow
        · obtain ⟨hroot, heq⟩ := mem_ownRoot_iff.mp hown
          exact ⟨hroot, .first settings location, ⟨location, hresolve, hsome, .refl⟩, heq⟩
        · obtain ⟨hroot, last, hgoes, heq⟩ :=
            exists_transGen_of_mem_roots (l := inside) hinside hbelow
          exact ⟨hroot, last, ⟨location, hresolve, hsome, hgoes.to_reflTransGen⟩, heq⟩
      · cases h
    · cases h
  · rintro ⟨hroot, stand, ⟨location, hresolve, hsome, hgoes⟩, rfl⟩
    obtain ⟨inside, hinside⟩ := Option.isSome_iff_exists.mp hsome
    simp only [rootsFrom, hresolve, hinside, List.mem_append]
    rcases Relation.reflTransGen_iff_eq_or_transGen.mp hgoes with heq | hgoes
    · exact .inl (mem_ownRoot_iff.mpr ⟨hroot, by rw [heq]; rfl⟩)
    · exact .inr (mem_roots_of_transGen hgoes hroot (rest_le place _) hinside)

/-- Every stand is spelled by names from the top. -/
theorem Visits.exists_path {start : Path} (h : Visits place settings start stand) :
    ∃ names, stand.path = .ofLocation names := by
  obtain ⟨location, -, -, hgoes⟩ := h
  induction hgoes with
  | refl => exact ⟨location, rfl⟩
  | tail _ hstep ih =>
    obtain ⟨names, hnames⟩ := ih
    obtain ⟨n, hn⟩ := hstep.exists_path
    exact ⟨names ++ [n], by rw [hn, hnames, Path.child_ofLocation]⟩

/-- The roots of a workspace are found from the starting directories. -/
theorem exists_mem_rootsFrom {starts : List Path}
    (h : root ∈ (discover place settings starts).roots) :
    ∃ start ∈ starts, root ∈ rootsFrom place settings start := by
  obtain ⟨repository, hmem, rfl⟩ := List.mem_map.mp h
  obtain ⟨found, hfound, rfl⟩ := List.mem_map.mp (RepositorySet.mem_of_mem_ofList hmem)
  exact List.mem_flatMap.mp hfound

/-- They are spelled by names from the top. -/
theorem exists_path_of_mem_roots {starts : List Path}
    (h : root ∈ (discover place settings starts).roots) : ∃ names, root = .ofLocation names := by
  obtain ⟨start, -, hstart⟩ := exists_mem_rootsFrom h
  obtain ⟨-, stand, hvisits, rfl⟩ := mem_rootsFrom_iff.mp hstart
  exact hvisits.exists_path

/-- The roots of a workspace are the directories that open as repositories with files and that the
search comes to from a starting directory. -/
theorem mem_roots_discover_iff {starts : List Path} :
    root ∈ (discover place settings starts).roots ↔
      isRoot place root ∧
        ∃ start ∈ starts, ∃ stand, Visits place settings start stand ∧ root = stand.path := by
  have hfrom : (∃ start ∈ starts, root ∈ rootsFrom place settings start) ↔
      isRoot place root ∧
        ∃ start ∈ starts, ∃ stand, Visits place settings start stand ∧ root = stand.path := by
    simp only [mem_rootsFrom_iff]
    exact ⟨fun ⟨start, hs, hroot, hv⟩ => ⟨hroot, start, hs, hv⟩,
      fun ⟨hroot, start, hs, hv⟩ => ⟨start, hs, hroot, hv⟩⟩
  rw [← hfrom]
  constructor
  · exact exists_mem_rootsFrom
  · rintro ⟨start, hs, hroot⟩
    have hlisted : Repository.ofRoot root ∈
        (starts.flatMap (rootsFrom place settings)).map Repository.ofRoot :=
      List.mem_map_of_mem (List.mem_flatMap.mpr ⟨start, hs, hroot⟩)
    obtain ⟨kept, hkept, hsame⟩ := RepositorySet.exists_mem_ofList hlisted
    have hmem : kept.root ∈ (discover place settings starts).roots := List.mem_map_of_mem hkept
    obtain ⟨names, hnames⟩ := exists_path_of_mem_roots hmem
    obtain ⟨-, stand, hvisits, hstand⟩ := mem_rootsFrom_iff.mp hroot
    obtain ⟨others, hothers⟩ := hvisits.exists_path
    rw [show (Repository.ofRoot root).root = root from rfl, hnames, hstand, hothers,
      Path.components_ofLocation_inj] at hsame
    rw [hstand, hothers, ← hsame, ← hnames]
    exact hmem

/-- A search that follows no links stands in directories, and spells them by where they are. -/
theorem Visits.of_not_followLinks {start : Path} (hlinks : settings.followLinks = false)
    (h : Visits place settings start stand) :
    stand.path = .ofLocation stand.location ∧
      ∃ inside, place.files.listing? stand.location = some inside := by
  obtain ⟨location, -, hsome, hgoes⟩ := h
  induction hgoes with
  | refl => exact ⟨rfl, Option.isSome_iff_exists.mp hsome⟩
  | tail _ hstep ih =>
    cases hstep with
    | into hl hfind hinto =>
      refine ⟨?_, _, listing_of_into hl hfind hinto⟩
      obtain ⟨-, levels, -, rfl⟩ := into?_eq_some_iff.mp hinto
      rw [Stand.enter, ih.1, Path.child_ofLocation]
    | through _ _ hthrough =>
      have hfollow := (through?_eq_some_iff.mp hthrough).1
      rw [hlinks] at hfollow
      cases hfollow

/-- So its roots are directories, spelled by where they are. -/
theorem exists_listing?_of_mem_roots {starts : List Path} (hlinks : settings.followLinks = false)
    (h : root ∈ (discover place settings starts).roots) :
    ∃ location inside, root = .ofLocation location ∧
      place.files.listing? location = some inside := by
  obtain ⟨-, start, -, stand, hvisits, rfl⟩ := mem_roots_discover_iff.mp h
  obtain ⟨hpath, inside, hinside⟩ := hvisits.of_not_followLinks hlinks
  exact ⟨stand.location, inside, hpath, hinside⟩

/-- Repositories that are found in their order are the set as they are. -/
theorem discover_eq {starts : List Path} {set : RepositorySet}
    (h : (starts.flatMap (rootsFrom place settings)).map Repository.ofRoot = set.repositories) :
    discover place settings starts = set := by
  rw [discover, h, RepositorySet.ofList_of_pairwise set.sorted]

end Discovery

end IgnoreAtlas
