import IgnoreAtlas.Measure
import IgnoreAtlas.Proofs.FileSystem.Files
import IgnoreAtlas.Proofs.Path.Settled
import Mathlib.Algebra.GroupWithZero.Nat
import Mathlib.Data.List.Perm.Basic

/-!
# What the numbers count

The volume of an entry is the number of the files at it or below it, and of their bytes. So the numbers
for some entries are those of a list of files, and where no two of the entries hold the same file that
list is the part of all files that some entry holds, each of them once (`stats_eq`).
-/

namespace IgnoreAtlas

namespace Volume

/-- The number of these files, and of their bytes. -/
def ofFiles (files : List (Location × Content)) : Volume :=
  ⟨files.length, (files.map fun f => f.2.size).sum⟩

theorem add_eq (a b : Volume) : a + b = ⟨a.files + b.files, a.size + b.size⟩ := rfl

theorem add_assoc (a b c : Volume) : a + b + c = a + (b + c) := by
  simp only [add_eq, Nat.add_assoc]

theorem none_add (a : Volume) : none + a = a := by
  rw [add_eq, none, Nat.zero_add, Nat.zero_add]

theorem ofFiles_append (a b : List (Location × Content)) :
    ofFiles (a ++ b) = ofFiles a + ofFiles b := by
  simp [ofFiles, add_eq]

theorem ofFiles_eq_of_perm {a b : List (Location × Content)} (h : a.Perm b) :
    ofFiles a = ofFiles b := by
  rw [ofFiles, ofFiles, h.length_eq, (h.map fun f => f.2.size).sum_nat]

/-- Where the files are does not count. -/
theorem ofFiles_map (move : Location → Location) (files : List (Location × Content)) :
    ofFiles (files.map fun f => (move f.1, f.2)) = ofFiles files := by
  simp [ofFiles, List.map_map, Function.comp_def]

/-- Files of two kinds that exclude one another are counted one kind after the other. -/
theorem ofFiles_filter_add {p q : Location × Content → Bool} {files : List (Location × Content)}
    (h : ∀ f, p f → ¬q f) :
    ofFiles (files.filter p) + ofFiles (files.filter q) =
      ofFiles (files.filter fun f => p f || q f) := by
  have hfirst : (fun f => p f && (p f || q f)) = p := by
    funext f
    cases p f <;> rfl
  have hsecond : (fun f => !p f && (p f || q f)) = q := by
    funext f
    cases hp : p f with
    | false => rfl
    | true => exact (Bool.eq_false_iff.mpr (h f hp)).symm
  have hperm := List.filter_append_perm p (files.filter fun f => p f || q f)
  rw [List.filter_filter, List.filter_filter, hfirst, hsecond] at hperm
  rw [← ofFiles_append, ofFiles_eq_of_perm hperm]

/-- Entries of which no two hold the same file count together all files that one of them holds. -/
theorem foldl_ofFiles_filter {α : Type} (holds : α → Location × Content → Bool)
    (files : List (Location × Content)) {entries : List α} (start : Volume)
    (h : entries.Pairwise fun a b => ∀ f, holds a f → ¬holds b f) :
    (entries.map fun e => ofFiles (files.filter (holds e))).foldl (· + ·) start =
      start + ofFiles (files.filter fun f => entries.any (holds · f)) := by
  induction entries generalizing start with
  | nil => simp [ofFiles, add_eq]
  | cons e entries ih =>
    obtain ⟨hfirst, hrest⟩ := List.pairwise_cons.mp h
    have hapart : ∀ f, holds e f → ¬entries.any (holds · f) := by
      intro f he hany
      obtain ⟨other, hother, hholds⟩ := List.any_eq_true.mp hany
      exact hfirst other hother f he hholds
    rw [List.map_cons, List.foldl_cons, ih _ hrest, add_assoc, ofFiles_filter_add hapart]
    rfl

end Volume

/-- The volume of a directory is that of its files. -/
theorem Listing.volume_eq (l : Listing) : l.volume = .ofFiles l.files := by
  induction l with
  | empty => rfl
  | file n content rest ih =>
    rw [volume, ih, Volume.add_eq]
    simp [files, Volume.ofFiles, Nat.add_comm]
  | link n target rest ih => exact ih
  | dir n inside rest ihInside ih =>
    rw [volume, ihInside, ih, files, Volume.ofFiles_append, Volume.ofFiles_map]

theorem Entry.volume_eq (e : Entry) : e.volume = .ofFiles e.files := by
  cases e with
  | file content => simp [volume, files, Volume.ofFiles]
  | link target => rfl
  | dir inside => exact inside.volume_eq

/-- The path leads to the file, or to a directory that it is in; a link at its end is not followed. -/
def Place.holds (place : Place) (p : Path) (file : Location) : Bool :=
  match place.files.locate place.cwd true p with
  | .ok location => location.isPrefixOf file
  | .error _ => false

/-- In a tree without links the path of an entry holds what its names begin, if it leads there. -/
theorem Place.holds_ofLocation_iff {place : Place} (hfree : place.files.top.linkFree)
    {location file : Location} {e : Entry} (he : place.files.entry? location = some e) :
    place.holds (.ofLocation location) file ↔
      place.exists? (.ofLocation location) ∧ location <+: file := by
  rw [holds, FileSystem.locate_of_linkFree hfree, Place.exists?_iff]
  cases hresolve : place.files.resolve place.cwd (.ofLocation location) with
  | error fault => simp
  | ok found =>
    have hfound := FileSystem.eq_of_resolve_ofLocation (FileSystem.real_of_linkFree hfree he) hresolve
    simp [hfound]

namespace Measure

variable {place : Place} {excluded : List String} {entries : List IgnoredEntry}

theorem isExcluded_iff {p : Path} :
    isExcluded excluded p ↔ ∃ n, p.fileName? = some n ∧ ∃ name ∈ excluded, n.bytes = Utf8.encode name := by
  unfold isExcluded
  constructor
  · intro h
    split at h
    · next name hname =>
      obtain ⟨n, hn, hdecode⟩ := Option.bind_eq_some_iff.mp hname
      exact ⟨n, hn, name, List.contains_iff_mem.mp h, (Utf8.encode_of_decode? hdecode).symm⟩
    · cases h
  · rintro ⟨n, hn, name, hname, hbytes⟩
    rw [hn, Option.bind_some, hbytes, Utf8.decode?_encode]
    exact List.contains_iff_mem.mpr hname

/-- The entries that are not left out. -/
def counted (excluded : List String) (entries : List IgnoredEntry) : List IgnoredEntry :=
  entries.filter fun e => !isExcluded excluded e.path

/-- The files of the tree that some of these entries hold. -/
def heldFiles (place : Place) (entries : List IgnoredEntry) : List (Location × Content) :=
  place.files.allFiles.filter fun f => entries.any fun e => place.holds e.path f.1

/-- What is at a path counts the files that the path holds. -/
theorem volumeAt_eq (place : Place) (p : Path) :
    volumeAt place p = .ofFiles (place.files.allFiles.filter fun f => place.holds p f.1) := by
  unfold volumeAt FileSystem.findUnfollowed? Place.holds
  cases place.files.locate place.cwd true p with
  | error fault => simp [Volume.ofFiles, Volume.none]
  | ok location =>
    cases hentry : place.files.entry? location with
    | none => simp [FileSystem.filter_allFiles_of_none hentry, hentry, Volume.ofFiles, Volume.none]
    | some e =>
      simp only [hentry]
      rw [← Volume.ofFiles_eq_of_perm (FileSystem.perm_files hentry), Volume.ofFiles_map (location ++ ·)]
      exact e.volume_eq

/-- Where no two of the entries hold the same file, they count together the files that they hold. -/
theorem foldl_volumeAt (h : entries.Pairwise fun a b =>
      ∀ file, place.holds a.path file → ¬place.holds b.path file) :
    (entries.map fun e => volumeAt place e.path).foldl (· + ·) .none =
      .ofFiles (heldFiles place entries) := by
  have hapart : entries.Pairwise fun a b =>
      ∀ f : Location × Content, place.holds a.path f.1 → ¬place.holds b.path f.1 := by
    refine h.imp ?_
    intro a b hab f
    exact hab f.1
  simp only [volumeAt_eq]
  rw [Volume.foldl_ofFiles_filter (fun (e : IgnoredEntry) f => place.holds e.path f.1) _ _ hapart,
    Volume.none_add]
  rfl

/-- Only what is counted matters for the numbers. -/
theorem stats_eq_foldl (place : Place) (excluded : List String) (root : Path)
    (entries : List IgnoredEntry) :
    stats place excluded root entries =
      let volume := ((counted excluded entries).map fun e => volumeAt place e.path).foldl (· + ·) .none
      ⟨root, (counted excluded entries).length, volume.files, volume.size % values64⟩ := rfl

/-- So the numbers count the files that an entry holds, each of them once. -/
theorem stats_eq (root : Path)
    (h : (counted excluded entries).Pairwise fun a b =>
      ∀ file, place.holds a.path file → ¬place.holds b.path file) :
    let files := heldFiles place (counted excluded entries)
    stats place excluded root entries =
      ⟨root, (counted excluded entries).length, files.length,
        (files.map fun f => f.2.size).sum % values64⟩ := by
  rw [stats_eq_foldl, foldl_volumeAt h]
  rfl

end Measure

end IgnoreAtlas
