import IgnoreAtlas.Proofs.FileSystem.Walking
import IgnoreAtlas.Proofs.Path.Normal
import Mathlib.Data.List.Induction

/-!
# When a normal spelling stays

A normal spelling is spelled normally once more wherever a path goes through more than one hand. It
stays as it is when each of its beginnings that leads somewhere leads to itself (`Settled`). What
exists has such a normal spelling, and so has what does not, with one exception: a path that leads
nowhere because some beginning of it follows too many links (`GivesUp`). Then the deepest part that
leads somewhere is found with other links behind it, and from its canonical form on these links are
few enough to be followed (`normalize_normalize`).

The path of an entry that is no link is a normal spelling, and so is that of a link that leads nowhere
(`normalize_entry`).
-/

namespace IgnoreAtlas

namespace Place

variable {place : Place} {p : Path} {location found : Location} {names : List Name}

/-! ## The cases of a normal spelling -/

/-- A path that leads somewhere is spelled by where it leads. -/
theorem normalize_eq_of_ok (h : place.files.resolve place.cwd (place.absolute p) = .ok found) :
    place.normalize p = .ofLocation found := by
  unfold normalize
  dsimp only
  rw [h]

/-- A path that leads nowhere is spelled by the deepest beginning that leads somewhere. -/
theorem normalize_eq_of_error {fault : Fault}
    (h : place.files.resolve place.cwd (place.absolute p) = .error fault)
    (habsolute : (place.absolute p).isAbsolute) :
    place.normalize p = .ofLocation
      (place.settle (clean (place.absolute p).components)
        (clean (place.absolute p).components).length) := by
  unfold normalize
  dsimp only
  rw [h, if_pos habsolute]

/-- Without a current directory a relative path is spelled by its names alone. -/
theorem normalize_eq_of_relative (h : (place.absolute p).isAbsolute = false) :
    place.normalize p = ⟨joinWith slash ((clean (place.absolute p).components).map Name.bytes)⟩ := by
  obtain ⟨-, hgone, -⟩ := currentDir?_of_relative h
  rw [currentDir?, Option.map_eq_none_iff] at hgone
  obtain ⟨fault, hfault⟩ := FileSystem.resolve_relative_of_gone hgone h
  unfold normalize
  dsimp only
  rw [hfault, h]
  rfl

/-! ## Names by their spelling -/

theorem clean_concat_name (components : List Component) (n : Name) :
    clean (components ++ [.name n]) = clean components ++ [n] := by
  simp [clean, List.foldl_append]

@[simp] theorem clean_map_name (names : List Name) : clean (names.map .name) = names := by
  induction names using List.reverseRecOn with
  | nil => rfl
  | append_singleton front n ih =>
    rw [List.map_append, List.map_singleton, clean_concat_name, ih]

/-- The path of a location is spelled by its names. -/
@[simp] theorem clean_ofLocation (location : Location) :
    clean (Path.ofLocation location).components = location := by
  rw [Path.components_ofLocation]
  exact clean_map_name location

@[simp] theorem absolute_ofLocation (place : Place) (location : Location) :
    place.absolute (.ofLocation location) = .ofLocation location :=
  if_pos (Path.isAbsolute_ofLocation location)

/-- Names with slashes between them have these names as components. -/
theorem components_joinWith_names (names : List Name) :
    (Path.mk (joinWith slash (names.map Name.bytes))).components = names.map .name := by
  have hrelative := Path.isAbsolute_joinWith_names names
  cases names with
  | nil => decide
  | cons n names =>
    have hpieces : ∀ piece ∈ (n :: names).map Name.bytes, slash ∉ piece := by
      intro piece hp
      obtain ⟨m, -, rfl⟩ := List.mem_map.mp hp
      exact m.isName.2.1
    have hsegments : (Path.mk (joinWith slash ((n :: names).map Name.bytes))).segments =
        (n :: names).map Name.bytes :=
      splitOn_joinWith (List.cons_ne_nil _ _) hpieces
    have hhere : (Path.mk (joinWith slash ((n :: names).map Name.bytes))).startsHere = false := by
      rw [Path.startsHere, hsegments]
      simp [n.isName.2.2.1]
    rw [Path.components, hrelative, hhere, hsegments]
    simp [List.filterMap_map]

/-! ## Settled locations -/

/-- Every beginning of the location that leads somewhere leads to itself. -/
def Settled (place : Place) (location : Location) : Prop :=
  ∀ part, part <+: location → ∀ found,
    place.files.resolve place.cwd (.ofLocation part) = .ok found → found = part

/-- What is real is settled. -/
theorem settled_of_real (h : place.files.Real location) : place.Settled location :=
  fun _ hpart _ hfound => FileSystem.eq_of_resolve_ofLocation (h.of_prefix hpart) hfound

/-- An entry of something settled is settled when it leads nowhere or to itself. -/
theorem settled_concat {n : Name} (h : place.Settled location)
    (hn : ∀ found, place.files.resolve place.cwd (.ofLocation (location ++ [n])) = .ok found →
      found = location ++ [n]) : place.Settled (location ++ [n]) := by
  intro part hpart found hfound
  rcases List.prefix_concat_iff.mp hpart with rfl | hpart
  · exact hn found hfound
  · exact h part hpart found hfound

theorem reached?_eq_some_iff {count : Nat} :
    place.reached? names count = some found ↔
      place.files.resolve place.cwd (.ofLocation (names.take count)) = .ok found := by
  unfold reached?
  split
  · next location h => rw [h, Option.some_inj, Except.ok.injEq]
  · next fault h => rw [h]; exact ⟨nofun, nofun⟩

/-- The top is reached always. -/
theorem reached?_zero : place.reached? names 0 = some [] := by
  have hclean : ¬(0 ∈ (Path.ofLocation []).bytes) := by decide
  rw [reached?_eq_some_iff, List.take_zero, FileSystem.resolve_ofLocation, if_neg hclean]
  exact FileSystem.walk_nil

/-- Settling finds the longest beginning, of those asked for, that leads somewhere. -/
theorem settle_spec (place : Place) (names : List Name) (most : Nat) :
    ∃ count ≤ most, ∃ location, place.reached? names count = some location ∧
      place.settle names most = location ++ names.drop count ∧
      ∀ more, count < more → more ≤ most → place.reached? names more = none := by
  induction most with
  | zero =>
    refine ⟨0, Nat.le_refl 0, [], reached?_zero, ?_, fun more hmore hmost => by omega⟩
    rw [settle, reached?_zero]
    rfl
  | succ most ih =>
    rw [settle]
    split
    · next location hreached =>
      exact ⟨most + 1, Nat.le_refl _, location, hreached, rfl, fun more hmore hmost => by omega⟩
    · next hnone =>
      obtain ⟨count, hcount, location, hreached, hsettle, hfurther⟩ := ih
      refine ⟨count, by omega, location, hreached, hsettle, fun more hmore hmost => ?_⟩
      rcases Nat.le_succ_iff.mp hmost with hle | rfl
      · exact hfurther more hmore hle
      · exact hnone

/-- What is settled stays when it is settled once more. -/
theorem Settled.settle_eq (h : place.Settled location) (most : Nat) :
    place.settle location most = location := by
  obtain ⟨count, -, found, hreached, hsettle, -⟩ := settle_spec place location most
  rw [hsettle, h _ (List.take_prefix count location) found (reached?_eq_some_iff.mp hreached),
    List.take_append_drop]

/-- The path of a settled location is its own normal spelling. -/
theorem Settled.normalize_eq (h : place.Settled location) :
    place.normalize (.ofLocation location) = .ofLocation location := by
  have habsolute := absolute_ofLocation place location
  cases hresolve : place.files.resolve place.cwd (place.absolute (.ofLocation location)) with
  | ok found =>
    rw [normalize_eq_of_ok hresolve]
    rw [habsolute] at hresolve
    rw [h location List.prefix_rfl found hresolve]
  | error fault =>
    rw [normalize_eq_of_error hresolve (habsolute ▸ Path.isAbsolute_ofLocation location),
      habsolute, clean_ofLocation, h.settle_eq]

/-! ## Spelling twice -/

/-- Where links are given up only when they go round in a circle, the deepest part that leads
somewhere is followed by names that lead nowhere. -/
theorem settled_settle
    (h : ∀ count, place.files.resolve place.cwd (.ofLocation (names.take count)) =
      .error .tooManyLinks → place.files.Circles (names.take count)) :
    place.Settled (place.settle names names.length) := by
  obtain ⟨count, -, location, hreached, hsettle, hfurther⟩ := settle_spec place names names.length
  rw [reached?_eq_some_iff] at hreached
  have hreal := FileSystem.real_of_resolve hreached
  rw [hsettle]
  intro part hpart found hfound
  rcases List.prefix_or_prefix_of_prefix hpart (List.prefix_append location _) with habove | hbelow
  · exact FileSystem.eq_of_resolve_ofLocation (hreal.of_prefix habove) hfound
  · obtain ⟨rest, rfl⟩ := hbelow
    rw [List.prefix_append_right_inj] at hpart
    by_cases hnil : rest = []
    · rw [hnil, List.append_nil] at hfound ⊢
      exact FileSystem.eq_of_resolve_ofLocation hreal hfound
    -- The same names lead nowhere behind the beginning that was found.
    have hlonger := List.length_pos_iff.mpr hnil
    have hinside : count + rest.length ≤ names.length := by
      have hle := hpart.length_le
      rw [List.length_drop] at hle
      omega
    have hnone := hfurther (count + rest.length) (by omega) hinside
    have htake : names.take (count + rest.length) = names.take count ++ rest := by
      rw [List.take_add, ← List.prefix_iff_eq_take.mp hpart]
    rcases FileSystem.resolve_append_of_resolve hreached hfound with hok | ⟨hmany, hends⟩
    · rw [← htake, ← reached?_eq_some_iff, hnone] at hok
      cases hok
    · rw [← htake] at hmany hends
      exact absurd (h _ hmany) hends

/-- The path leads nowhere, and some beginning of what its spelling comes to follows too many
links. -/
def GivesUp (place : Place) (p : Path) : Prop :=
  (∀ found, place.files.resolve place.cwd (place.absolute p) ≠ .ok found) ∧
    ∃ count, place.files.resolve place.cwd
      (.ofLocation ((clean (place.absolute p).components).take count)) = .error .tooManyLinks

/-- A path that stays relative is spelled once and for all. -/
theorem normalize_normalize_of_relative (h : (place.absolute p).isAbsolute = false) :
    place.normalize (place.normalize p) = place.normalize p := by
  obtain ⟨-, hgone, -⟩ := currentDir?_of_relative h
  have hsame : place.absolute (place.normalize p) = place.normalize p := by
    rw [absolute, isAbsolute_normalize, h, if_neg Bool.false_ne_true, hgone]
  have hagain : (place.absolute (place.normalize p)).isAbsolute = false := by
    rw [hsame, isAbsolute_normalize, h]
  rw [normalize_eq_of_relative hagain, hsame, normalize_eq_of_relative h,
    components_joinWith_names, clean_map_name]

/-- A normal spelling stays as it is, unless the path gives up. -/
theorem normalize_normalize (h : ¬place.GivesUp p) :
    place.normalize (place.normalize p) = place.normalize p := by
  cases habsolute : (place.absolute p).isAbsolute with
  | false => exact normalize_normalize_of_relative habsolute
  | true =>
    cases hresolve : place.files.resolve place.cwd (place.absolute p) with
    | ok found =>
      rw [normalize_eq_of_ok hresolve]
      exact (settled_of_real (FileSystem.real_of_resolve hresolve)).normalize_eq
    | error fault =>
      have hnone : ∀ found, place.files.resolve place.cwd (place.absolute p) ≠ .ok found := by
        rw [hresolve]
        exact nofun
      rw [normalize_eq_of_error hresolve habsolute]
      exact (settled_settle fun count hmany => absurd ⟨hnone, count, hmany⟩ h).normalize_eq

/-! ## The path of an entry -/

/-- A path leads to something as soon as it can be followed to its end. -/
theorem exists?_iff : place.exists? p ↔ ∃ found, place.files.resolve place.cwd p = .ok found := by
  rw [exists?, find?, FileSystem.find?]
  cases hresolve : place.files.resolve place.cwd p with
  | error fault => simp
  | ok found =>
    obtain ⟨e, he, -⟩ := FileSystem.real_of_resolve hresolve
    simp [he]

/-- A path leads to a directory when it leads to the place of one. -/
theorem isDir_iff :
    place.isDir p ↔ ∃ location inside, place.files.resolve place.cwd p = .ok location ∧
      place.files.listing? location = some inside := by
  have hentry : (∃ inside, place.find? p = some (.dir inside)) ↔ place.isDir p := by
    unfold isDir
    split
    · next inside h => simp [h]
    · next hno => exact ⟨fun ⟨inside, h⟩ => absurd h (hno inside), nofun⟩
  rw [← hentry, find?, FileSystem.find?]
  cases place.files.resolve place.cwd p with
  | error fault => simp
  | ok location => simp [FileSystem.entry?_eq_dir_iff]

/-- The path is that of a link, and the link leads somewhere. -/
def LeadsOn (place : Place) (p : Path) : Prop :=
  (∃ location target, p = .ofLocation location ∧
    place.files.entry? location = some (.link target)) ∧ place.exists? p

/-- Every other entry is settled. -/
theorem settled_entry {e : Entry} (h : place.files.entry? location = some e)
    (hstays : ¬place.LeadsOn (.ofLocation location)) : place.Settled location := by
  rcases List.eq_nil_or_concat' location with rfl | ⟨above, n, rfl⟩
  · exact settled_of_real (FileSystem.real_nil place.files)
  · obtain ⟨inside, hinside⟩ := FileSystem.exists_listing?_of_entry? (List.cons_ne_nil n []) h
    refine settled_concat (settled_of_real (FileSystem.real_of_listing? hinside)) fun found hfound => ?_
    cases e with
    | link target =>
      exact absurd ⟨⟨_, target, rfl, h⟩, exists?_iff.mpr ⟨found, hfound⟩⟩ hstays
    | file content => exact FileSystem.eq_of_resolve_ofLocation ⟨_, h, rfl⟩ hfound
    | dir inside => exact FileSystem.eq_of_resolve_ofLocation ⟨_, h, rfl⟩ hfound

/-- The path of an entry is its own normal spelling, unless it is that of a link that leads somewhere.
In either case the normal spelling stays. -/
theorem normalize_entry {e : Entry} (h : place.files.entry? location = some e) :
    (place.normalize (.ofLocation location) = .ofLocation location ↔
      ¬place.LeadsOn (.ofLocation location)) ∧
      place.normalize (place.normalize (.ofLocation location)) =
        place.normalize (.ofLocation location) := by
  by_cases hleads : place.LeadsOn (.ofLocation location)
  · obtain ⟨⟨_, target, heq, hlink⟩, hthere⟩ := hleads
    obtain rfl := Path.ofLocation_inj.mp heq
    obtain ⟨found, hfound⟩ := exists?_iff.mp hthere
    have hreal := FileSystem.real_of_resolve hfound
    rw [normalize_eq_of_ok ((absolute_ofLocation place location).symm ▸ hfound)]
    refine ⟨⟨fun hsame => ?_, absurd ⟨⟨_, target, rfl, hlink⟩, hthere⟩⟩,
      (settled_of_real hreal).normalize_eq⟩
    -- What a path leads to is no link.
    obtain ⟨e', he', hnolink⟩ := hreal
    rw [Path.ofLocation_inj.mp hsame, hlink] at he'
    cases he'
    cases hnolink
  · have hsame := (settled_entry h hleads).normalize_eq
    exact ⟨⟨fun _ => hleads, fun _ => hsame⟩, by rw [hsame, hsame]⟩

end Place

end IgnoreAtlas
