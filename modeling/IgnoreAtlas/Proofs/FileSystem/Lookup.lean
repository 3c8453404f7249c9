import IgnoreAtlas.Proofs.FileSystem.Likeness

/-!
# Looking at the end of a path without following it

A lookup that does not follow a link at the end of a path still follows those on the way, and it goes
through the last name as well when a slash or a `.` stands behind it. Where it ends depends on the
outlines of the entries alone (`SameOutlines.locate_eq`), so not on the order in which directories list
them. A path that spells a location and has no link on the way leads to that location or nowhere
(`eq_of_locate_ofLocation`).
-/

namespace IgnoreAtlas.FileSystem

variable {fs other : FileSystem} {location found cwd : Location} {n : Name}

/-- The trees have the same entries in outline. -/
def SameOutlines (fs other : FileSystem) : Prop :=
  ∀ location, (fs.entry? location).map Entry.outline = (other.entry? location).map Entry.outline

namespace SameOutlines

/-- A directory of the one tree is one of the other, and its entries have the same outlines. -/
theorem exists_listing? {inside : Listing} (h : fs.SameOutlines other)
    (hinside : fs.listing? location = some inside) :
    ∃ within, other.listing? location = some within ∧
      ∀ n, (inside.find? n).map Entry.outline = (within.find? n).map Entry.outline := by
  have hsame := h location
  rw [entry?_eq_dir_iff.mpr hinside, Option.map_some] at hsame
  obtain ⟨e, he, houtline⟩ := Option.map_eq_some_iff.mp hsame.symm
  obtain ⟨within, rfl⟩ := Entry.outline_eq_dir houtline
  have hwithin := entry?_eq_dir_iff.mp he
  refine ⟨within, hwithin, ?_⟩
  intro n
  rw [← entry?_concat hinside, ← entry?_concat hwithin]
  exact h (location ++ [n])

theorem symm (h : fs.SameOutlines other) : other.SameOutlines fs := fun location => (h location).symm

/-- Where no walk can stand in the one tree none can in the other, for the same reason. -/
theorem standing_eq_error (h : fs.SameOutlines other) (hnone : fs.listing? location = none) :
    other.standing location = fs.standing location := by
  have hother : other.listing? location = none := by
    rw [Option.eq_none_iff_forall_ne_some]
    intro within hwithin
    obtain ⟨inside, hinside, -⟩ := h.symm.exists_listing? hwithin
    rw [hnone] at hinside
    cases hinside
  have hsame := congrArg Option.isSome (h location)
  rw [Option.isSome_map, Option.isSome_map] at hsame
  unfold standing
  rw [hnone, hother]
  cases hentry : fs.entry? location with
  | none =>
    rw [hentry, Option.isSome_none, Eq.comm, Option.isSome_eq_false_iff, Option.isNone_iff_eq_none]
      at hsame
    rw [hsame]
  | some e =>
    rw [hentry, Option.isSome_some, Eq.comm, Option.isSome_iff_exists] at hsame
    obtain ⟨e', he'⟩ := hsame
    rw [he']

theorem walkWith_eq (h : fs.SameOutlines other) {lastLink : Bool}
    {follow : Location → List Step → Except Fault Location} (steps : List Step) :
    other.walkWith lastLink follow location steps = fs.walkWith lastLink follow location steps := by
  induction steps generalizing location with
  | nil => rfl
  | cons step steps ih =>
    cases hlisting : fs.listing? location with
    | none =>
      have hstand := h.standing_eq_error hlisting
      cases hfault : fs.standing location with
      | ok inside =>
        rw [standing_eq_ok, hlisting] at hfault
        cases hfault
      | error fault =>
        rw [hfault] at hstand
        cases step <;> simp only [walkWith, hstand, hfault] <;> rfl
    | some inside =>
      obtain ⟨within, hwithin, hentries⟩ := h.exists_listing? hlisting
      have hstand := standing_eq_ok.mpr hlisting
      have hstand' := standing_eq_ok.mpr hwithin
      cases step with
      | stay | up => simp only [walkWith, hstand, hstand', ok_bind, ih]
      | enter n =>
        have hentry := hentries n
        cases hfind : inside.find? n with
        | none =>
          rw [hfind, Option.map_none, Eq.comm, Option.map_eq_none_iff] at hentry
          simp only [walkWith, hstand, hstand', ok_bind, hfind, hentry]
        | some e =>
          rw [hfind, Option.map_some, Eq.comm, Option.map_eq_some_iff] at hentry
          obtain ⟨e', hfind', houtline⟩ := hentry
          cases e with
          | file content =>
            obtain ⟨held, rfl⟩ := Entry.outline_eq_file houtline
            simp only [walkWith, hstand, hstand', ok_bind, hfind, hfind', ih]
          | dir below =>
            obtain ⟨below', rfl⟩ := Entry.outline_eq_dir houtline
            simp only [walkWith, hstand, hstand', ok_bind, hfind, hfind', ih]
          | link target =>
            obtain rfl := Entry.outline_eq_link houtline
            simp only [walkWith, hstand, hstand', ok_bind, hfind, hfind']

theorem walk_eq (h : fs.SameOutlines other) (lastLink : Bool) (links : Nat) (location : Location)
    (steps : List Step) :
    other.walk lastLink links location steps = fs.walk lastLink links location steps := by
  induction links generalizing location steps with
  | zero => exact h.walkWith_eq steps
  | succ links ih =>
    have hfollow : other.walk lastLink links = fs.walk lastLink links := by
      funext location steps
      exact ih location steps
    rw [walk, walk, hfollow]
    exact h.walkWith_eq steps

/-- Where a path leads is the same in both trees. -/
theorem locate_eq (h : fs.SameOutlines other) (cwd : Location) (lastLink : Bool) (p : Path) :
    other.locate cwd lastLink p = fs.locate cwd lastLink p := by
  simp only [locate, h.walk_eq]

end SameOutlines

/-! ## Without a link on the way -/

/-- Nothing strictly above the location is a link. -/
def Unlinked (fs : FileSystem) (location : Location) : Prop :=
  ∀ above target, above <+: location → above ≠ location → fs.entry? above ≠ some (.link target)

/-- A walk along the names of such a location ends there. -/
theorem eq_of_walkWith_enter {follow : Location → List Step → Except Fault Location}
    {names : List Name} (hfree : fs.Unlinked (location ++ names))
    (h : fs.walkWith true follow location (names.map .enter) = .ok found) :
    found = location ++ names := by
  induction names generalizing location with
  | nil =>
    rw [List.append_nil]
    exact (Except.ok.inj h).symm
  | cons n names ih =>
    have hnext : location ++ n :: names = location ++ [n] ++ names := by simp
    rw [hnext] at hfree ⊢
    cases hstand : fs.standing location with
    | error fault =>
      rw [List.map_cons, walkWith, hstand] at h
      cases h
    | ok inside =>
      have hentry := entry?_concat (standing_eq_ok.mp hstand) n
      rw [List.map_cons] at h
      simp only [walkWith, hstand, ok_bind] at h
      by_cases hlong : longestName < n.bytes.length
      · rw [if_pos hlong] at h
        cases h
      · rw [if_neg hlong] at h
        cases hfind : inside.find? n with
        | none =>
          rw [hfind] at h
          cases h
        | some e =>
          rw [hfind] at h hentry
          cases e with
          | file _ | dir _ => exact ih hfree h
          | link target =>
            -- A link can only be the last name, and is not followed there.
            by_cases hlast : names = []
            · rw [hlast] at h ⊢
              rw [List.append_nil]
              exact (Except.ok.inj h).symm
            · apply absurd hentry
              apply hfree (location ++ [n]) target (List.prefix_append _ _)
              simpa using hlast

/-- So its path leads there, if it leads anywhere. -/
theorem eq_of_locate_ofLocation (hfree : fs.Unlinked location)
    (h : fs.locate cwd true (.ofLocation location) = .ok found) : found = location := by
  have hne : (Path.ofLocation location).bytes ≠ [] := List.cons_ne_nil _ _
  rw [locate, if_neg hne] at h
  split at h
  · cases h
  · rw [if_pos (Path.isAbsolute_ofLocation location)] at h
    have htop : fs.standing [] = .ok fs.top := rfl
    by_cases hnil : location = []
    · subst hnil
      have hsteps : (Path.ofLocation []).steps = [.stay, .stay] := by decide
      rw [hsteps] at h
      exact (Except.ok.inj h).symm
    · rw [Path.steps_ofLocation hnil] at h
      have hfree' : fs.Unlinked ([] ++ location) := hfree
      exact eq_of_walkWith_enter hfree' h

end IgnoreAtlas.FileSystem
