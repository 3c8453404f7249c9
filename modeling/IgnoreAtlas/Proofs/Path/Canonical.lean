import IgnoreAtlas.Proofs.Path.Settled

/-!
# What a normal spelling is

`normalize_isNormal` says it all at once: the normal spelling of a path is absolute, has neither `.`
nor `..` in it, is the canonical path of what the path leads to if it leads somewhere, its deepest
part that leads somewhere is canonical, and it is its own normal spelling wherever it is read.

Two things are asked for. The current directory is there (`Placed`), and links are given up only when
they go round in a circle (`GivesUpInCircles`): with a limit on how many of them are followed, the
part that is taken for the deepest one may be followed further from its canonical form.
-/

namespace IgnoreAtlas

namespace Path

variable {location : Location} {p : Path}

/-- A relative path that is read in a location goes down to the location first. -/
theorem steps_join_ofLocation (location : Location) (h : p.isAbsolute = false) :
    ((ofLocation location).join p).steps = .stay :: (location.map .enter ++ p.steps) := by
  rcases List.eq_nil_or_concat' location with rfl | ⟨above, n, rfl⟩
  · have hstay : Step.ofSegment [] = .stay := by decide
    have hsplit := splitOn_append_cons slash [] p.bytes
    rw [List.nil_append] at hsplit
    rw [join, h, if_neg Bool.false_ne_true, if_pos (.inr rfl)]
    simp [steps, segments, ofLocation, joinWith, hsplit, splitOn, hstay]
  · have hne : above ++ [n] ≠ [] := by simp
    have hfront := steps_ofLocation hne
    rw [steps, segments] at hfront
    rw [join_ofLocation_concat above n h, steps, segments, splitOn_append_cons, List.map_append,
      hfront, steps, segments, List.cons_append]

theorem mem_join_ofLocation {b : UInt8} (hb : b ≠ slash) (h : p.isAbsolute = false) :
    b ∈ ((ofLocation location).join p).bytes ↔ b ∈ (ofLocation location).bytes ∨ b ∈ p.bytes := by
  rcases List.eq_nil_or_concat' location with rfl | ⟨above, n, rfl⟩
  · rw [join, h, if_neg Bool.false_ne_true, if_pos (.inr rfl)]
    exact List.mem_append
  · rw [join_ofLocation_concat above n h]
    simp [hb]

end Path

namespace Place

variable {place : Place} {p : Path} {location part found : Location}

/-- The current directory is there, and its path leads to it. -/
def Placed (place : Place) : Prop :=
  place.currentDir? = some place.cwd ∧
    place.files.resolve place.cwd (.ofLocation place.cwd) = .ok place.cwd

/-- Of the beginnings of what the spelling of the path comes to, those that follow too many links go
round in a circle. -/
def GivesUpInCircles (place : Place) (p : Path) : Prop :=
  ∀ part, part <+: clean (place.absolute p).components →
    place.files.resolve place.cwd (.ofLocation part) = .error .tooManyLinks →
      place.files.Circles part

/-- `part` is the longest beginning of the location that leads somewhere. -/
def Deepest (place : Place) (location part : Location) : Prop :=
  part <+: location ∧ (∃ found, place.files.resolve place.cwd (.ofLocation part) = .ok found) ∧
    ∀ longer, longer <+: location → part.length < longer.length →
      ∀ found, place.files.resolve place.cwd (.ofLocation longer) ≠ .ok found

/-- `n` is the one spelling of the path `p`. -/
structure IsNormal (place : Place) (p n : Path) : Prop where
  isAbsolute : n.isAbsolute
  /-- It has no `.` in it. -/
  here_not_mem : .here ∉ n.components
  /-- It has no `..` in it. -/
  up_not_mem : .up ∉ n.components
  /-- Where the path leads somewhere, it is the canonical path of that. -/
  canonical : ∀ found, place.files.resolve place.cwd p = .ok found → n = .ofLocation found
  /-- Its deepest part that leads somewhere is in canonical form. -/
  deepest : ∃ location part, n = .ofLocation location ∧ place.Deepest location part ∧
    place.files.resolve place.cwd (.ofLocation part) = .ok part
  /-- Its own normal spelling is itself, whatever the current directory is. -/
  stays : ∀ cwd, { place with cwd := cwd }.normalize n = n

/-- In a current directory that is there every path can be read as an absolute one. -/
theorem Placed.isAbsolute_absolute (h : place.Placed) (p : Path) : (place.absolute p).isAbsolute := by
  by_contra hrelative
  rw [Bool.not_eq_true] at hrelative
  obtain ⟨-, hgone, -⟩ := currentDir?_of_relative hrelative
  rw [h.1] at hgone
  cases hgone

/-- A path leads to where it leads when it is read as an absolute one. -/
theorem Placed.resolve_absolute (h : place.Placed)
    (hfound : place.files.resolve place.cwd p = .ok found) :
    place.files.resolve place.cwd (place.absolute p) = .ok found := by
  cases habsolute : p.isAbsolute with
  | true => rwa [absolute, if_pos habsolute]
  | false =>
    obtain ⟨hdir, hcwd⟩ := h
    have hslash : (0 : UInt8) ≠ slash := by decide
    have htop : place.files.listing? [] = some place.files.top := rfl
    have hreal : place.files.Real ([] ++ place.cwd) := FileSystem.real_of_resolve hcwd
    have hjoined := Path.isAbsolute_join (Path.isAbsolute_ofLocation place.cwd) p
    rw [FileSystem.resolve_ofLocation] at hcwd
    split at hcwd
    · cases hcwd
    · next hlegal =>
      obtain ⟨-, hnul, hwalk⟩ := FileSystem.resolve_eq_ok_iff.mp hfound
      rw [habsolute, if_neg Bool.false_ne_true] at hwalk
      rw [absolute, habsolute, if_neg Bool.false_ne_true, hdir, FileSystem.resolve_eq_ok_iff,
        if_pos hjoined, Path.steps_join_ofLocation place.cwd habsolute, FileSystem.walk_stay htop,
        FileSystem.walk_append_of_real hreal hcwd, Path.mem_join_ofLocation hslash habsolute, not_or]
      exact ⟨Path.bytes_ne_nil hjoined, ⟨hlegal, hnul⟩, hwalk⟩

/-- What is settled is so whatever the current directory is. -/
theorem Settled.of_cwd (h : place.Settled location) (cwd : Location) :
    { place with cwd := cwd }.Settled location := by
  intro part hpart found hfound
  apply h part hpart
  rwa [FileSystem.resolve_ofLocation] at hfound ⊢

/-- Some beginning of every location is the longest that leads somewhere. -/
theorem exists_deepest (place : Place) (location : Location) :
    ∃ part, place.Deepest location part := by
  obtain ⟨count, hcount, found, hreached, -, hfurther⟩ :=
    settle_spec place location location.length
  refine ⟨location.take count, List.take_prefix count location,
    ⟨found, reached?_eq_some_iff.mp hreached⟩, ?_⟩
  intro longer hlonger hlength other hother
  have hle := hlonger.length_le
  rw [List.length_take, Nat.min_eq_left hcount] at hlength
  have hnone := hfurther longer.length hlength hle
  rw [List.prefix_iff_eq_take.mp hlonger, ← reached?_eq_some_iff, hnone] at hother
  cases hother

theorem Settled.exists_deepest (h : place.Settled location) :
    ∃ part, place.Deepest location part ∧
      place.files.resolve place.cwd (.ofLocation part) = .ok part := by
  obtain ⟨part, hdeepest⟩ := Place.exists_deepest place location
  obtain ⟨found, hfound⟩ := hdeepest.2.1
  obtain rfl := h part hdeepest.1 found hfound
  exact ⟨found, hdeepest, hfound⟩

/-- The normal spelling of a path is the path of a settled location. -/
theorem exists_settled_of_normalize (habsolute : (place.absolute p).isAbsolute)
    (hcircles : place.GivesUpInCircles p) :
    ∃ location, place.normalize p = .ofLocation location ∧ place.Settled location := by
  cases hresolve : place.files.resolve place.cwd (place.absolute p) with
  | ok found =>
    exact ⟨found, normalize_eq_of_ok hresolve,
      settled_of_real (FileSystem.real_of_resolve hresolve)⟩
  | error fault =>
    refine ⟨_, normalize_eq_of_error hresolve habsolute, settled_settle ?_⟩
    intro count hmany
    exact hcircles _ (List.take_prefix count _) hmany

/-- The normal spelling of every path is what a normal spelling should be, where the current directory
is there and links are given up only when they go round in a circle. -/
theorem normalize_isNormal (place : Place) (p : Path) (hplaced : place.Placed)
    (hcircles : place.GivesUpInCircles p) :
    place.IsNormal p (place.normalize p) := by
  obtain ⟨location, hlocation, hsettled⟩ :=
    exists_settled_of_normalize (hplaced.isAbsolute_absolute p) hcircles
  obtain ⟨part, hdeepest, hpart⟩ := hsettled.exists_deepest
  have hnames : ∀ component ∈ (place.normalize p).components,
      component = .root ∨ ∃ n, component = .name n := by
    intro component hmem
    rw [hlocation, Path.components_ofLocation, List.mem_cons, List.mem_map] at hmem
    rcases hmem with rfl | ⟨n, -, rfl⟩
    · exact .inl rfl
    · exact .inr ⟨n, rfl⟩
  constructor
  case isAbsolute =>
    rw [isAbsolute_normalize]
    exact hplaced.isAbsolute_absolute p
  case here_not_mem =>
    intro hmem
    obtain h | ⟨n, h⟩ := hnames _ hmem <;> cases h
  case up_not_mem =>
    intro hmem
    obtain h | ⟨n, h⟩ := hnames _ hmem <;> cases h
  case canonical =>
    intro found hfound
    exact normalize_eq_of_ok (hplaced.resolve_absolute hfound)
  case deepest => exact ⟨location, part, hlocation, hdeepest, hpart⟩
  case stays =>
    intro cwd
    rw [hlocation]
    exact (hsettled.of_cwd cwd).normalize_eq

/-- A link that leads to itself is followed without end, whatever is asked for behind it. -/
theorem walk_self_link {fs : FileSystem} {inside : Listing} {n : Name} {target : Path}
    (hinside : fs.listing? location = some inside) (hfind : inside.find? n = some (.link target))
    (hrelative : target.isAbsolute = false) (hsteps : target.steps = [.enter n])
    (hshort : n.bytes.length ≤ FileSystem.longestName) (links : Nat) (rest : List Step) :
    fs.walk false links location (.enter n :: rest) = .error .tooManyLinks := by
  have hstand := FileSystem.standing_eq_ok.mpr hinside
  induction links with
  | zero =>
    have hmove : fs.move 0 location (.enter n) = .error .tooManyLinks := by
      unfold FileSystem.move
      simp only [hstand, if_neg (Nat.not_lt.mpr hshort), hfind]
    rw [FileSystem.walk_cons, hmove]
    rfl
  | succ links ih =>
    have hmove : fs.move (links + 1) location (.enter n) = .ok (links, location, [.enter n]) := by
      unfold FileSystem.move
      simp only [hstand, if_neg (Nat.not_lt.mpr hshort), hfind, hsteps, hrelative,
        Bool.false_eq_true, if_false]
    rw [FileSystem.walk_cons, hmove]
    exact ih

/-- In the current directory `/dock` the link `hoop` leads to itself and the link `lost` nowhere. -/
def hoopPlace : Place where
  files :=
    { top := .dir (.spell "dock")
        (.link (.spell "hoop") (.ofString "hoop") <|
          .link (.spell "lost") (.ofString "/none") .empty) .empty
      distinct := by decide +kernel }
  cwd := [.spell "dock"]
  home := .ofString "/home"

/-- A path into the link `hoop`, past the link `lost`. -/
def hoopFile : Path := .ofString "lost/.././hoop//buoy/"

theorem circles_hoopPlace (names : List Name) :
    hoopPlace.files.Circles (.spell "dock" :: .spell "hoop" :: names) := by
  intro links
  have hinside : hoopPlace.files.listing? [.spell "dock"] =
      some (.link (.spell "hoop") (.ofString "hoop") <|
        .link (.spell "lost") (.ofString "/none") .empty) := by decide +kernel
  have hring := walk_self_link hinside (if_pos rfl) (by decide +kernel) (by decide +kernel)
    (by decide +kernel) links (names.map .enter)
  rw [List.map_cons, FileSystem.walk_cons]
  exact hring

/-- What is behind a link to itself does not exist, and is spelled by its names. -/
theorem normalize_isNormal_hoopPlace :
    hoopPlace.Placed ∧ hoopPlace.GivesUpInCircles hoopFile ∧
      hoopPlace.IsNormal hoopFile (.ofString "/dock/hoop/buoy") := by
  have hplaced : hoopPlace.Placed := by constructor <;> decide +kernel
  have hcircles : hoopPlace.GivesUpInCircles hoopFile := by
    intro part hpart hmany
    have hclean : clean (hoopPlace.absolute hoopFile).components =
        [.spell "dock", .spell "hoop", .spell "buoy"] := by decide +kernel
    rw [hclean] at hpart
    simp only [List.prefix_cons_iff, List.prefix_nil] at hpart
    obtain rfl | ⟨names, rfl, rfl | ⟨names, rfl, -⟩⟩ := hpart
    · exact absurd hmany (by decide +kernel)
    · exact absurd hmany (by decide +kernel)
    · exact circles_hoopPlace names
  have hspelling : hoopPlace.normalize hoopFile = .ofString "/dock/hoop/buoy" := by decide +kernel
  refine ⟨hplaced, hcircles, ?_⟩
  rw [← hspelling]
  exact normalize_isNormal hoopPlace hoopFile hplaced hcircles

end Place

end IgnoreAtlas
