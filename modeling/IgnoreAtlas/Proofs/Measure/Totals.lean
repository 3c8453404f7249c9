import IgnoreAtlas.Proofs.FileSystem.Lookup
import IgnoreAtlas.Proofs.Measure.Volume

/-!
# What the totals are of

The numbers for a list of entries are sums over the entries that are not left out by name
(`stats_eq_sums`). For each of them the files are counted that are where its path leads or in a
directory below it, by steps that go through no link (`counts_volumeAt`), and each once. So neither the
order of the entries nor that of the names in a directory makes a difference, and the numbers for two
lists together are those for the lists added up (`stats_totals`).

Two entries count the same file when one is where the other leads or below it. That is a matter of
where the paths lead and not of how they are spelled: an entry that leads through a link counts the
files that another one counts elsewhere, and a slash behind the name of a link leads through it
(`counted_twice_through_link`).
-/

namespace IgnoreAtlas

/-- The name at the end of the path is one of these texts. -/
def Path.NamedAmong (p : Path) (names : List String) : Prop :=
  ∃ n, p.fileName? = some n ∧ ∃ name ∈ names, n.bytes = Utf8.encode name

instance (p : Path) (names : List String) : Decidable (p.NamedAmong names) :=
  decidable_of_iff (Measure.isExcluded names p) Measure.isExcluded_iff

/-! ## What a path reaches -/

namespace Place

variable {place : Place} {p q : Path} {location start : Location}

/-- The path leads here when a link at its end is not followed, or here is an entry of a directory that
the path reaches. -/
inductive Reaches (place : Place) (p : Path) : Location → Prop
  | arrives {location : Location} (h : place.files.locate place.cwd true p = .ok location) :
      place.Reaches p location
  | within {location : Location} {inside : Listing} {n : Name} (h : place.Reaches p location)
      (hdir : place.files.entry? location = some (.dir inside)) (hn : n ∈ inside.names) :
      place.Reaches p (location ++ [n])

/-- This is a file of the tree, and the path reaches it. -/
def ReachesFile (place : Place) (p : Path) (f : Location × Content) : Prop :=
  place.files.entry? f.1 = some (.file f.2) ∧ place.Reaches p f.1

/-- What a path reaches is where it leads, or below that. -/
theorem Reaches.exists_prefix (h : place.Reaches p location) :
    ∃ start, place.files.locate place.cwd true p = .ok start ∧ start <+: location := by
  induction h with
  | arrives h => exact ⟨_, h, List.prefix_rfl⟩
  | within h hdir hn ih =>
    obtain ⟨start, hstart, hprefix⟩ := ih
    exact ⟨start, hstart, hprefix.trans (List.prefix_append _ _)⟩

/-- Every entry below where a path leads is reached, for what is above it is a directory. -/
theorem reaches_append (hstart : place.files.locate place.cwd true p = .ok start)
    {names : List Name} {e : Entry} (he : place.files.entry? (start ++ names) = some e) :
    place.Reaches p (start ++ names) := by
  induction names using List.reverseRecOn generalizing e with
  | nil =>
    rw [List.append_nil]
    exact .arrives hstart
  | append_singleton front n ih =>
    rw [← List.append_assoc] at he ⊢
    obtain ⟨inside, hinside⟩ := FileSystem.exists_listing?_of_entry? (List.cons_ne_nil n []) he
    have hdir := FileSystem.entry?_eq_dir_iff.mpr hinside
    rw [FileSystem.entry?_concat hinside] at he
    exact .within (ih hdir) hdir (Listing.mem_names_of_find? he)

/-- An entry is held by the paths that reach it. -/
theorem holds_iff_reaches {e : Entry} (he : place.files.entry? location = some e) :
    place.holds p location ↔ place.Reaches p location := by
  unfold holds
  constructor
  · intro h
    split at h
    · next start hstart =>
      obtain ⟨names, rfl⟩ := List.isPrefixOf_iff_prefix.mp h
      exact reaches_append hstart he
    · cases h
  · intro h
    obtain ⟨start, hstart, hprefix⟩ := h.exists_prefix
    rw [hstart]
    exact List.isPrefixOf_iff_prefix.mpr hprefix

/-- Neither path leads to a place at or below the place that the other leads to. -/
def Apart (place : Place) (p q : Path) : Prop :=
  ∀ x y, place.files.locate place.cwd true p = .ok x → place.files.locate place.cwd true q = .ok y →
    ¬x <+: y ∧ ¬y <+: x

/-- Such paths hold no file together. -/
theorem Apart.not_holds (h : place.Apart p q) (hp : place.holds p location) :
    ¬place.holds q location := by
  intro hq
  unfold holds at hp hq
  split at hp
  · next x hx =>
    split at hq
    · next y hy =>
      obtain ⟨hbelow, habove⟩ := h x y hx hy
      rcases List.prefix_or_prefix_of_prefix (List.isPrefixOf_iff_prefix.mp hp)
        (List.isPrefixOf_iff_prefix.mp hq) with hprefix | hprefix
      · exact hbelow hprefix
      · exact habove hprefix
    · cases hq
  · cases hp

/-- The path spells a location, and no directory on the way there is a link. -/
def Spells (place : Place) (p : Path) : Prop :=
  ∃ location, p = .ofLocation location ∧ place.files.Unlinked location

/-- Paths of this kind are apart when neither is at or above the other. -/
theorem Spells.apart (hp : place.Spells p) (hq : place.Spells q) (h : ¬p.startsWith q)
    (h' : ¬q.startsWith p) : place.Apart p q := by
  obtain ⟨a, rfl, ha⟩ := hp
  obtain ⟨b, rfl, hb⟩ := hq
  rw [Path.startsWith_ofLocation_iff] at h h'
  intro x y hx hy
  rw [FileSystem.eq_of_locate_ofLocation ha hx, FileSystem.eq_of_locate_ofLocation hb hy]
  exact ⟨h', h⟩

end Place

/-! ## Volumes -/

namespace Volume

variable {a b volume : Volume} {kind : Location × Content → Prop}

/-- This is the number of the files of some kind, and of their bytes. -/
def Counts (volume : Volume) (kind : Location × Content → Prop) : Prop :=
  ∃ files, files.Nodup ∧ (∀ f, f ∈ files ↔ kind f) ∧ volume = .ofFiles files

/-- Only one volume counts the files of a kind. -/
theorem Counts.eq (ha : a.Counts kind) (hb : b.Counts kind) : a = b := by
  obtain ⟨files, hnodup, hmem, rfl⟩ := ha
  obtain ⟨others, hnodup', hmem', rfl⟩ := hb
  apply ofFiles_eq_of_perm
  rw [List.perm_ext_iff_of_nodup hnodup hnodup']
  intro f
  rw [hmem, hmem']

theorem Counts.congr {other : Location × Content → Prop} (h : volume.Counts kind)
    (hsame : ∀ f, kind f ↔ other f) : volume.Counts other := by
  obtain ⟨files, hnodup, hmem, hvolume⟩ := h
  refine ⟨files, hnodup, ?_, hvolume⟩
  intro f
  rw [hmem, hsame]

/-- The files of a tree that pass a test. -/
theorem counts_filter_allFiles (fs : FileSystem) (test : Location × Content → Bool) :
    (ofFiles (fs.allFiles.filter test)).Counts
      fun f => fs.entry? f.1 = some (.file f.2) ∧ test f := by
  refine ⟨_, fs.nodup_allFiles.filter test, ?_, rfl⟩
  intro f
  rw [List.mem_filter, FileSystem.mem_allFiles_iff]

/-- Volumes are added up number by number. -/
theorem foldl_add (volumes : List Volume) (start : Volume) :
    volumes.foldl (· + ·) start =
      ⟨start.files + (volumes.map files).sum, start.size + (volumes.map size).sum⟩ := by
  induction volumes generalizing start with
  | nil => rfl
  | cons volume volumes ih =>
    rw [List.foldl_cons, ih, add_eq]
    simp only [List.map_cons, List.sum_cons, Nat.add_assoc]

end Volume

/-! ## Trees that are listed in another order -/

/-- The trees have the same entries, and their directories may list them in different orders. -/
def FileSystem.SameEntries (fs other : FileSystem) : Prop :=
  ∀ location, (fs.entry? location).map Entry.surface = (other.entry? location).map Entry.surface

namespace FileSystem.SameEntries

variable {fs other : FileSystem} {location : Location} {content : Content}

theorem sameOutlines (h : fs.SameEntries other) : fs.SameOutlines other := by
  intro location
  have hsame := congrArg (Option.map Entry.outline) (h location)
  simpa only [Option.map_map, Function.comp_def, Entry.outline_surface] using hsame

theorem symm (h : fs.SameEntries other) : other.SameEntries fs := fun location => (h location).symm

/-- A file of the one tree is one of the other. -/
theorem entry?_eq_file (h : fs.SameEntries other)
    (hfile : fs.entry? location = some (.file content)) :
    other.entry? location = some (.file content) := by
  have hsame := h location
  rw [hfile, Option.map_some, Eq.comm, Option.map_eq_some_iff] at hsame
  obtain ⟨e, he, hsurface⟩ := hsame
  rw [he]
  cases e with
  | file held => exact congrArg _ hsurface
  | dir _ | link _ => cases hsurface

end FileSystem.SameEntries

namespace Place

variable {place other : Place} {p : Path} {f : Location × Content}

/-- A path reaches the same files in both trees. -/
theorem ReachesFile.of_sameEntries (hcwd : other.cwd = place.cwd)
    (hsame : place.files.SameEntries other.files) (h : place.ReachesFile p f) :
    other.ReachesFile p f := by
  obtain ⟨hfile, hreaches⟩ := h
  have hthere := hsame.entry?_eq_file hfile
  have hholds : other.holds p f.1 = place.holds p f.1 := by
    rw [holds, holds, hcwd, hsame.sameOutlines.locate_eq]
  refine ⟨hthere, (holds_iff_reaches hthere).mp ?_⟩
  rw [hholds]
  exact (holds_iff_reaches hfile).mpr hreaches

end Place

namespace Measure

variable {place : Place} {excluded : List String} {entries : List IgnoredEntry}

/-! ## The numbers as sums -/

/-- At a path the files are counted that it reaches. -/
theorem counts_volumeAt (place : Place) (p : Path) :
    (volumeAt place p).Counts (place.ReachesFile p) := by
  rw [volumeAt_eq]
  apply (Volume.counts_filter_allFiles place.files fun f => place.holds p f.1).congr
  intro f
  exact and_congr_right Place.holds_iff_reaches

/-- The files that some entry holds are those that some entry reaches. -/
theorem counts_heldFiles (place : Place) (entries : List IgnoredEntry) :
    (Volume.ofFiles (heldFiles place entries)).Counts
      fun f => ∃ e ∈ entries, place.ReachesFile e.path f := by
  apply (Volume.counts_filter_allFiles place.files
    fun f => entries.any fun e => place.holds e.path f.1).congr
  intro f
  rw [List.any_eq_true]
  constructor
  · intro h
    obtain ⟨hfile, e, he, hholds⟩ := h
    exact ⟨e, he, hfile, (Place.holds_iff_reaches hfile).mp hholds⟩
  · intro h
    obtain ⟨e, he, hfile, hreaches⟩ := h
    exact ⟨hfile, e, he, (Place.holds_iff_reaches hfile).mpr hreaches⟩

/-- Those that count are the entries without an excluded name. -/
theorem counted_eq : counted excluded entries = entries.filter fun e => ¬e.path.NamedAmong excluded := by
  apply List.filter_congr
  intro e _
  rw [Bool.eq_iff_iff, Bool.not_eq_true', ← Bool.not_eq_true, decide_eq_true_iff, isExcluded_iff]
  rfl

theorem stats_eq_sums (place : Place) (excluded : List String) (root : Path)
    (entries : List IgnoredEntry) :
    stats place excluded root entries =
      ⟨root, (counted excluded entries).length,
        ((counted excluded entries).map fun e => (volumeAt place e.path).files).sum,
        ((counted excluded entries).map fun e => (volumeAt place e.path).size).sum % values64⟩ := by
  rw [stats_eq_foldl, Volume.foldl_add]
  simp only [Volume.none, Nat.zero_add, List.map_map, Function.comp_def]

/-- The order of the entries makes no difference. -/
theorem stats_eq_of_perm {others : List IgnoredEntry} (h : others.Perm entries) (root : Path) :
    stats place excluded root others = stats place excluded root entries := by
  have hcounted : (counted excluded others).Perm (counted excluded entries) := h.filter _
  rw [stats_eq_sums, stats_eq_sums, hcounted.length_eq, (hcounted.map _).sum_nat,
    (hcounted.map fun e => (volumeAt place e.path).size).sum_nat]

/-- Nor does the order of the names in a directory. -/
theorem stats_eq_of_sameEntries {other : Place} (hcwd : other.cwd = place.cwd)
    (h : place.files.SameEntries other.files) (root : Path) :
    stats other excluded root entries = stats place excluded root entries := by
  have hvolume (p : Path) : volumeAt other p = volumeAt place p := by
    apply (counts_volumeAt other p).eq
    apply (counts_volumeAt place p).congr
    intro f
    exact ⟨.of_sameEntries hcwd h, .of_sameEntries hcwd.symm h.symm⟩
  simp only [stats_eq_sums, hvolume]

/-- The numbers of the one and of the other, added up. -/
def Sum (first second numbers : IgnoreStats) : Prop :=
  numbers.entries = first.entries + second.entries ∧ numbers.files = first.files + second.files ∧
    numbers.size = first.size + second.size

/-- The bytes of what counts, each entry for itself. -/
def bytes (place : Place) (excluded : List String) (entries : List IgnoredEntry) : Nat :=
  ((counted excluded entries).map fun e => (volumeAt place e.path).size).sum

theorem bytes_append (place : Place) (excluded : List String) (front back : List IgnoredEntry) :
    bytes place excluded (front ++ back) = bytes place excluded front + bytes place excluded back := by
  simp only [bytes, counted, List.filter_append, List.map_append, List.sum_append]

/-- The bytes are counted exactly while they fit. -/
theorem size_stats (h : bytes place excluded entries < values64) (root : Path) :
    (stats place excluded root entries).size = bytes place excluded entries := by
  rw [stats_eq_sums]
  exact Nat.mod_eq_of_lt h

/-- The numbers for two lists together are those for the first and those for the second. -/
theorem stats_append {front back : List IgnoredEntry}
    (h : bytes place excluded (front ++ back) < values64) (root : Path) :
    Sum (stats place excluded root front) (stats place excluded root back)
      (stats place excluded root (front ++ back)) := by
  have hsum := bytes_append place excluded front back
  have hfront : bytes place excluded front < values64 := by omega
  have hback : bytes place excluded back < values64 := by omega
  unfold Sum
  rw [size_stats h, size_stats hfront, size_stats hback, stats_eq_sums, stats_eq_sums, stats_eq_sums]
  refine ⟨?_, ?_, hsum⟩
  · simp only [counted, List.filter_append, List.length_append]
  · simp only [counted, List.filter_append, List.map_append, List.sum_append]

/-- Entries that lead apart count each file that one of them reaches once. -/
theorem counts_stats (h : bytes place excluded entries < values64) (root : Path)
    (hapart : (counted excluded entries).Pairwise fun a b => place.Apart a.path b.path) :
    let numbers := stats place excluded root entries
    (Volume.mk numbers.files numbers.size).Counts
      fun f => ∃ e ∈ counted excluded entries, place.ReachesFile e.path f := by
  intro numbers
  have hheld : (counted excluded entries).Pairwise fun a b =>
      ∀ file, place.holds a.path file → ¬place.holds b.path file :=
    hapart.imp fun hab file => hab.not_holds
  have hvolume : Volume.mk numbers.files numbers.size =
      .ofFiles (heldFiles place (counted excluded entries)) := by
    have hsize : numbers.size = bytes place excluded entries := size_stats h root
    rw [← foldl_volumeAt hheld, Volume.foldl_add, hsize]
    simp only [numbers, stats_eq_sums, bytes, Volume.none, Nat.zero_add, List.map_map,
      Function.comp_def]
  rw [hvolume]
  exact counts_heldFiles place _

/-- The numbers say how many entries there are, and for each the files that its path reaches, added up
over the entries. -/
structure Totals (place : Place) (root : Path) (kept : List IgnoredEntry) (numbers : IgnoreStats) :
    Prop where
  root : numbers.root = root
  entries : numbers.entries = kept.length
  volumes : ∃ volume : IgnoredEntry → Volume,
    (∀ e, (volume e).Counts (place.ReachesFile e.path)) ∧
      numbers.files = (kept.map fun e => (volume e).files).sum ∧
        numbers.size = (kept.map fun e => (volume e).size).sum

/-- **Totals.** While the bytes fit in 64 bits, the numbers for a list of entries are the totals of those
without an excluded name. They do not depend on the order of the entries, nor on the order in which
directories list their names; they are added up over lists put together; and where no entry leads to a
place at or below the one that another leads to, each file counts once. So it is for entries that are
spelled by where they are when none is at or above another. In the numbers for several repositories
those for each stand where the repository stood. -/
theorem stats_totals (h : bytes place excluded entries < values64) (root : Path) :
    let kept := entries.filter fun e => ¬e.path.NamedAmong excluded
    let numbers := stats place excluded root entries
    Totals place root kept numbers ∧
      (∀ others, others.Perm entries → stats place excluded root others = numbers) ∧
      (∀ other : Place, other.cwd = place.cwd → place.files.SameEntries other.files →
        stats other excluded root entries = numbers) ∧
      (∀ front back, front ++ back = entries →
        Sum (stats place excluded root front) (stats place excluded root back) numbers) ∧
      (kept.Pairwise (fun a b => place.Apart a.path b.path) →
        (Volume.mk numbers.files numbers.size).Counts
          fun f => ∃ e ∈ kept, place.ReachesFile e.path f) ∧
      ((∀ e ∈ kept, place.Spells e.path) →
        kept.Pairwise (fun a b => ¬a.path.startsWith b.path ∧ ¬b.path.startsWith a.path) →
          kept.Pairwise fun a b => place.Apart a.path b.path) ∧
      ∀ repositories : List (Path × List IgnoredEntry),
        (statsOfEach place excluded repositories).length = repositories.length ∧
        ∀ i : Nat, repositories[i]? = some (root, entries) →
          (statsOfEach place excluded repositories)[i]? = some numbers := by
  intro kept numbers
  have hkept : counted excluded entries = kept := counted_eq
  refine ⟨⟨?_, ?_, ?_⟩, ?_, ?_, ?_, ?_, ?_, ?_⟩
  · rfl
  · rw [← hkept]
    rfl
  · refine ⟨fun e => volumeAt place e.path, fun e => counts_volumeAt place e.path, ?_, ?_⟩
    · rw [← hkept]
      simp only [numbers, stats_eq_sums]
    · rw [← hkept]
      exact size_stats h root
  · intro others hperm
    exact stats_eq_of_perm hperm root
  · intro other hcwd hsame
    exact stats_eq_of_sameEntries hcwd hsame root
  · intro front back hsplit
    subst hsplit
    exact stats_append h root
  · intro hapart
    rw [← hkept] at hapart ⊢
    exact counts_stats h root hapart
  · intro hspells hpairwise
    apply hpairwise.imp_of_mem
    intro a b ha hb hab
    exact (hspells a ha).apart (hspells b hb) hab.1 hab.2
  · intro repositories
    refine ⟨List.length_map _, ?_⟩
    intro i hi
    rw [statsOfEach, List.getElem?_map, hi]
    rfl

/-! ## A link to what is counted elsewhere -/

/-- A file in the directory `/mere/shoal`, and a link to that directory in `/weir`. -/
def weirPlace : Place where
  files :=
    { top := .dir (.spell "mere")
        (.dir (.spell "shoal") (.file (.spell "silt") (.literal (Utf8.encode "12345")) .empty) .empty) <|
          .dir (.spell "weir") (.link (.spell "lock") (.ofString "/mere/shoal") .empty) .empty
      distinct := by decide +kernel }
  cwd := []
  home := .ofString "/home"

/-- The directory of the link does not reach the file. -/
theorem stats_totals_weirPlace :
    let entries : List IgnoredEntry := [⟨.ofString "/weir", true⟩, ⟨.ofString "/mere/shoal", true⟩]
    bytes weirPlace [] entries < values64 ∧
      (Volume.mk 1 5).Counts fun f => ∃ e ∈ entries, weirPlace.ReachesFile e.path f := by
  intro entries
  have hbytes : bytes weirPlace [] entries < values64 := by decide +kernel
  have hkept : (entries.filter fun e => ¬e.path.NamedAmong []) = entries := by decide +kernel
  have hweir : weirPlace.files.locate weirPlace.cwd true (.ofString "/weir") =
      .ok [.spell "weir"] := by decide +kernel
  have hshoal : weirPlace.files.locate weirPlace.cwd true (.ofString "/mere/shoal") =
      .ok [.spell "mere", .spell "shoal"] := by decide +kernel
  have hapart : entries.Pairwise fun a b => weirPlace.Apart a.path b.path := by
    apply List.pairwise_pair.mpr
    intro x y hx hy
    obtain rfl := Except.ok.inj (hweir.symm.trans hx)
    obtain rfl := Except.ok.inj (hshoal.symm.trans hy)
    decide +kernel
  obtain ⟨-, -, -, -, hcounts, -, -⟩ := stats_totals hbytes (.ofString "/")
  rw [hkept] at hcounts
  have hnumbers : stats weirPlace [] (.ofString "/") entries = ⟨.ofString "/", 2, 1, 5⟩ := by
    decide +kernel
  rw [hnumbers] at hcounts
  exact ⟨hbytes, hcounts hapart⟩

/-- A slash behind the name of the link: neither entry is at or above the other, the first has the name
of a link, and yet the one file is counted by both. -/
theorem counted_twice_through_link :
    let link := Path.ofString "/weir/lock/"
    let directory := Path.ofString "/mere/shoal"
    link.components = (Path.ofLocation [.spell "weir", .spell "lock"]).components ∧
      weirPlace.files.entry? [.spell "weir", .spell "lock"] = some (.link directory) ∧
      ¬link.startsWith directory ∧ ¬directory.startsWith link ∧
      weirPlace.files.allFiles.length = 1 ∧
      stats weirPlace [] (.ofString "/") [⟨link, true⟩, ⟨directory, true⟩] =
        ⟨.ofString "/", 2, 2, 10⟩ := by
  decide +kernel

end Measure

end IgnoreAtlas
