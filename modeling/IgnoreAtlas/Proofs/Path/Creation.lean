import IgnoreAtlas.Proofs.FileSystem.Writing
import IgnoreAtlas.Proofs.Path.Settled
import IgnoreAtlas.Proofs.Path.Steps
import Mathlib.Data.Set.List

/-!
# Spelling a file that does not exist yet

The normal spelling of a file that exists is the canonical path of its directory with its name behind
it. Before the file exists `..` is carried out on its spelling alone, and so its normal spelling is
the same exactly when the directory is still found by its own cleaned spelling (`normalize_iff`).
That is so when there is no `..` in it (`normalize_clean`), and in general when no `..` takes back a
link.
-/

namespace IgnoreAtlas

namespace Place

variable {place : Place} {p q : Path} {above found : Location} {names : List Name} {n : Name}

/-- The path names an entry `n` that the directory at `above` does not have; `q` is a path of that
directory. -/
structure NamesNew (place : Place) (p q : Path) (above : Location) (n : Name) : Prop where
  isAbsolute : q.isAbsolute
  components : p.components = q.components ++ [.name n]
  leads : place.files.resolve place.cwd q = .ok above
  directory : (place.files.listing? above).isSome
  missing : place.files.entry? (above ++ [n]) = none

/-! ## Settling -/

/-- Names behind the beginnings that are asked for stay. -/
theorem settle_append {count : Nat} (h : count ≤ names.length) (more : List Name) :
    place.settle (names ++ more) count = place.settle names count ++ more := by
  have hreached {count : Nat} (h : count ≤ names.length) :
      place.reached? (names ++ more) count = place.reached? names count := by
    rw [reached?, reached?, List.take_append_of_le_length h]
  induction count with
  | zero => rw [settle, settle, hreached h, List.append_assoc]
  | succ count ih =>
    rw [settle, settle, hreached h]
    cases place.reached? names (count + 1) with
    | none => exact ih (by omega)
    | some location => simp only [List.drop_append_of_le_length h, List.append_assoc]

theorem settle_of_resolve (h : place.files.resolve place.cwd (.ofLocation names) = .ok found) :
    place.settle names names.length = found := by
  have hreached : place.reached? names names.length = some found := by
    rw [reached?_eq_some_iff, List.take_length, h]
  cases hlength : names.length with
  | zero =>
    rw [hlength] at hreached
    rw [settle, hreached, List.length_eq_zero_iff.mp hlength, List.append_nil]
    rfl
  | succ count =>
    rw [hlength] at hreached
    rw [settle, hreached]
    simp [← hlength]

/-- The path of names is spelled by what they settle to, whether they lead somewhere or not. -/
theorem normalize_ofLocation (place : Place) (names : List Name) :
    place.normalize (.ofLocation names) = .ofLocation (place.settle names names.length) := by
  have habsolute := absolute_ofLocation place names
  cases hresolve : place.files.resolve place.cwd (.ofLocation names) with
  | ok found =>
    rw [settle_of_resolve hresolve]
    exact normalize_eq_of_ok (habsolute.symm ▸ hresolve)
  | error fault =>
    rw [normalize_eq_of_error (habsolute.symm ▸ hresolve)
      (habsolute.symm ▸ Path.isAbsolute_ofLocation names), habsolute, clean_ofLocation]

/-! ## Before the file exists -/

theorem NamesNew.isAbsolute_path (h : place.NamesNew p q above n) : p.isAbsolute :=
  Path.isAbsolute_of_startsWith h.isAbsolute
    (Path.startsWith_iff.mpr (h.components ▸ List.prefix_append ..))

/-- From its directory the entry is not found. -/
theorem NamesNew.walk_enter_ne (h : place.NamesNew p q above n) (links : Nat) (found : Location) :
    place.files.walk false links above [.enter n] ≠ .ok found := by
  intro hwalk
  obtain ⟨-, inside, e, hinside, hfind, -⟩ := FileSystem.exists_find?_of_walk_enter hwalk
  have hmissing := h.missing
  rw [FileSystem.entry?_concat hinside, hfind] at hmissing
  cases hmissing

/-- The path does not lead anywhere. -/
theorem NamesNew.resolve_ne (h : place.NamesNew p q above n) (found : Location) :
    place.files.resolve place.cwd p ≠ .ok found := by
  intro hfound
  obtain ⟨-, -, hwalk⟩ := FileSystem.resolve_eq_ok_iff.mp hfound
  obtain ⟨-, -, habove⟩ := FileSystem.resolve_eq_ok_iff.mp h.leads
  have hsplit : Step.withoutStay p.steps = Step.withoutStay q.steps ++ [.enter n] := by
    rw [Path.withoutStay_steps, Path.withoutStay_steps, h.components, List.filterMap_append]
    rfl
  have hwithout := FileSystem.walk_withoutStay hwalk
  rw [if_pos h.isAbsolute_path, hsplit] at hwithout
  rw [if_pos h.isAbsolute] at habove
  obtain ⟨left, -, hrest⟩ := FileSystem.walk_append (FileSystem.walk_withoutStay habove)
  rw [hrest] at hwithout
  exact h.walk_enter_ne left found hwithout

/-- So it is spelled as what its spelling comes to. -/
theorem NamesNew.normalize_eq (h : place.NamesNew p q above n) :
    place.normalize p = place.normalize (.ofLocation (clean q.components ++ [n])) := by
  have habsolute : place.absolute p = p := if_pos h.isAbsolute_path
  cases hresolve : place.files.resolve place.cwd p with
  | ok found => exact absurd hresolve (h.resolve_ne found)
  | error fault =>
    rw [normalize_eq_of_error (habsolute.symm ▸ hresolve) (habsolute.symm ▸ h.isAbsolute_path),
      habsolute, h.components, clean_concat_name, normalize_ofLocation]

/-- Names that lead nowhere as a whole are spelled as all but the last of them are. -/
theorem settle_concat_of_error {fault : Fault}
    (h : place.files.resolve place.cwd (.ofLocation (names ++ [n])) = .error fault) :
    place.settle (names ++ [n]) (names ++ [n]).length = place.settle names names.length ++ [n] := by
  have hnone : place.reached? (names ++ [n]) (names.length + 1) = none := by
    rw [reached?, List.take_of_length_le (by simp), h]
  rw [List.length_append, List.length_singleton, settle, hnone]
  exact settle_append (Nat.le_refl _) [n]

/-- The spelling is that of the file to come when the directory is found by its cleaned spelling. -/
theorem NamesNew.normalize_iff (h : place.NamesNew p q above n) :
    place.normalize p = .ofLocation (above ++ [n]) ↔
      place.normalize (.ofLocation (clean q.components)) = .ofLocation above := by
  rw [h.normalize_eq, normalize_ofLocation, normalize_ofLocation, Path.ofLocation_inj,
    Path.ofLocation_inj]
  cases hresolve : place.files.resolve place.cwd (.ofLocation (clean q.components ++ [n])) with
  | error fault => rw [settle_concat_of_error hresolve, List.append_cancel_right_eq]
  | ok found =>
    -- The cleaned spelling leads to an entry of that name, which then is in another directory.
    obtain ⟨other, hother, left, -, hwalk⟩ := FileSystem.exists_resolve_of_append hresolve
    rw [settle_of_resolve hresolve, settle_of_resolve hother]
    constructor
    · rintro rfl
      obtain ⟨e, he, -⟩ := FileSystem.real_of_resolve hresolve
      rw [h.missing] at he
      cases he
    · rintro rfl
      exact absurd hwalk (h.walk_enter_ne left found)

/-- A path without `..` has the components of a location. -/
theorem exists_components_eq_ofLocation (h : q.isAbsolute) (hup : .up ∉ q.components) :
    ∃ names, q.components = (Path.ofLocation names).components := by
  rw [Path.components_of_isAbsolute h, List.mem_cons, not_or] at hup
  have hnames : q.segments.filterMap Component.ofSegment? ∈ Set.range (List.map Component.name) := by
    rw [Set.range_list_map]
    intro component hmem
    obtain ⟨segment, hsegment, hs⟩ := List.mem_filterMap.mp hmem
    rcases Component.ofSegment?_cases (not_mem_of_mem_splitOn hsegment) with
      ⟨-, hnone⟩ | ⟨-, hsome⟩ | ⟨n, -, hsome⟩
    · rw [hs] at hnone
      cases hnone
    · rw [hs, Option.some_inj] at hsome
      exact absurd (hsome ▸ hmem) hup.2
    · rw [hs, Option.some_inj] at hsome
      exact ⟨n, hsome.symm⟩
  obtain ⟨names, hnames⟩ := hnames
  exact ⟨names, by rw [Path.components_of_isAbsolute h, Path.components_ofLocation, hnames]⟩

/-- A directory is found by the cleaned spelling of a path without `..`. -/
theorem NamesNew.normalize_clean (h : place.NamesNew p q above n) (hup : .up ∉ q.components) :
    place.normalize (.ofLocation (clean q.components)) = .ofLocation above := by
  obtain ⟨names, hnames⟩ := exists_components_eq_ofLocation h.isAbsolute hup
  obtain ⟨inside, hinside⟩ := Option.isSome_iff_exists.mp h.directory
  rw [hnames, clean_ofLocation]
  refine normalize_eq_of_ok ?_
  rw [absolute_ofLocation]
  exact FileSystem.resolve_of_components_eq hinside h.leads h.isAbsolute hnames.symm

/-! ## When the file exists -/

/-- Creating the file puts it into the directory, and changes nothing else. -/
theorem NamesNew.write_eq {content : Content} {files : FileSystem}
    (h : place.NamesNew p q above n) (hwrite : place.files.write place.cwd p content = .ok files) :
    files = place.files.putFile above n content ∧
      files.resolve place.cwd p = .ok (above ++ [n]) := by
  obtain ⟨inside, hinside⟩ := Option.isSome_iff_exists.mp h.directory
  have hnew := h.missing
  rw [FileSystem.entry?_concat hinside] at hnew
  obtain ⟨-, hclean, ⟨front, m, hsteps⟩, -⟩ := FileSystem.exists_spot_of_write hwrite
  -- The last step enters the name, and the others are those of the directory's path.
  have hsplit : Step.withoutStay front ++ [.enter m] = Step.withoutStay q.steps ++ [.enter n] := by
    have hwithout := Path.withoutStay_steps p
    rw [hsteps, h.components, List.filterMap_append, ← Path.withoutStay_steps,
      Step.withoutStay_append] at hwithout
    exact hwithout
  obtain ⟨hfront, hlast⟩ := List.append_inj' hsplit rfl
  obtain rfl : m = n := by simpa using hlast
  have hstart : FileSystem.startOf place.cwd p = [] := if_pos h.isAbsolute_path
  have hwalk : place.files.walk false FileSystem.mostLinks [] front = .ok above := by
    obtain ⟨-, -, hq⟩ := FileSystem.resolve_eq_ok_iff.mp h.leads
    rw [if_pos h.isAbsolute] at hq
    exact (FileSystem.walk_iff_of_withoutStay_eq hinside hfront).mpr hq
  obtain ⟨hshort, rfl⟩ :=
    FileSystem.eq_putFile_of_write hwrite hsteps (hstart.symm ▸ hwalk) hinside hnew
  refine ⟨rfl, ?_⟩
  have hwithin : place.files.Within (place.files.putFile above m content) :=
    FileSystem.within_putFile hinside fun _ hfind => nomatch hnew.symm.trans hfind
  obtain ⟨inside', hinside', -⟩ := hwithin.listing? hinside
  have hthere : FileSystem.entry? (place.files.putFile above m content) (above ++ [m]) =
      some (.file content) := FileSystem.entry?_putFile_self hinside
  rw [FileSystem.entry?_concat hinside'] at hthere
  obtain ⟨left, -, hrest⟩ := FileSystem.walk_append (FileSystem.walk_of_within hwithin hwalk)
  rw [FileSystem.resolve_eq_ok_iff, if_pos h.isAbsolute_path, hsteps, hrest,
    FileSystem.walk_enter hinside' hthere rfl hshort, FileSystem.walk_nil]
  exact ⟨Path.bytes_ne_nil h.isAbsolute_path, hclean, rfl⟩

/-- The file that exists is spelled by its place. -/
theorem NamesNew.normalize_write {content : Content} {files : FileSystem}
    (h : place.NamesNew p q above n) (hwrite : place.files.write place.cwd p content = .ok files) :
    { place with files := files }.normalize p = .ofLocation (above ++ [n]) := by
  have habsolute : { place with files := files }.absolute p = p := if_pos h.isAbsolute_path
  refine normalize_eq_of_ok ?_
  rw [habsolute]
  exact (h.write_eq hwrite).2

end Place

end IgnoreAtlas
