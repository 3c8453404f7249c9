import IgnoreAtlas.Proofs.FileSystem.Files
import IgnoreAtlas.Proofs.FileSystem.Likeness
import IgnoreAtlas.Proofs.Path.Settled
import IgnoreAtlas.Proofs.Path.Steps

/-!
# What is below a root

The entries below a root are those that are reached from where the root leads, through real
directories (`below?`). Where no link is among them a path below the root leads to the entry of its
names and to nothing else (`resolve_descend_iff`), so that two places in which that entry looks the
same answer alike (`SameBelow`).
-/

namespace IgnoreAtlas

namespace Entry

/-- What is read of the entry. -/
def bytes : Entry → Bytes
  | file content => content.bytes
  | link _ | dir _ => []

@[simp] theorem bytes_surface (e : Entry) : e.surface.bytes = e.bytes := by
  cases e <;> rfl

@[simp] theorem isDir_surface (e : Entry) : e.surface.isDir = e.isDir := by
  cases e <;> rfl

/-- What can be told from the surface is the same where the surface is. -/
theorem map_congr_of_surface {α : Type} {f : Entry → α} (hf : ∀ e : Entry, f e.surface = f e)
    {e other : Option Entry} (h : e.map surface = other.map surface) : e.map f = other.map f := by
  have hmap (e : Option Entry) : e.map f = (e.map surface).map f := by
    cases e <;> simp [hf]
  rw [hmap, h, ← hmap]

end Entry

namespace Place

variable {place other : Place} {root p : Path} {location found : Location} {names : List Name}
  {e : Entry}

/-- The entry that these names lead to from where the root leads; no link is followed on the way. -/
def below? (place : Place) (root : Path) (names : List Name) : Option Entry :=
  match place.files.resolve place.cwd root with
  | .ok location => place.files.entry? (location ++ names)
  | .error _ => none

/-- There is no link below the root. -/
def LinkFreeBelow (place : Place) (root : Path) : Prop :=
  ∀ names target, place.below? root names ≠ some (.link target)

theorem below?_eq (h : place.files.resolve place.cwd root = .ok location) (names : List Name) :
    place.below? root names = place.files.entry? (location ++ names) := by
  rw [below?, h]

theorem exists_resolve_of_below? (h : place.below? root names = some e) :
    ∃ location, place.files.resolve place.cwd root = .ok location := by
  unfold below? at h
  split at h
  · next location hlocation => exact ⟨location, hlocation⟩
  · cases h

/-- In a tree without links there are none below any root. -/
theorem linkFreeBelow_of_linkFree (h : place.files.top.linkFree) (root : Path) :
    place.LinkFreeBelow root := by
  intro names target hlink
  obtain ⟨location, hlocation⟩ := exists_resolve_of_below? hlink
  rw [below?_eq hlocation] at hlink
  exact FileSystem.entry?_ne_link h target hlink

/-- What is below a root leads somewhere only if the root does. -/
theorem exists_resolve_of_descend (habsolute : root.isAbsolute)
    (h : place.files.resolve place.cwd (root.descend names) = .ok found) :
    ∃ location, place.files.resolve place.cwd root = .ok location := by
  induction names using List.reverseRecOn generalizing found with
  | nil => exact ⟨found, h⟩
  | append_singleton names n ih =>
    rw [Path.descend_append] at h
    obtain ⟨-, above, -, -, habove, -⟩ :=
      FileSystem.exists_of_resolve_child (Path.isAbsolute_descend habsolute names) h
    exact ih habove

/-- A path below a root without links leads to the entry of its names. -/
theorem resolve_descend_iff (habsolute : root.isAbsolute) (hfree : place.LinkFreeBelow root)
    (h : place.files.resolve place.cwd root = .ok location) :
    place.files.resolve place.cwd (root.descend names) = .ok found ↔
      found = location ++ names ∧ (place.below? root names).isSome ∧ ∀ n ∈ names, n.Legal := by
  induction names using List.reverseRecOn generalizing found with
  | nil =>
    obtain ⟨e, he, -⟩ := FileSystem.real_of_resolve h
    rw [below?_eq h, List.append_nil, he]
    simp [Path.descend, h, eq_comm]
  | append_singleton names n ih =>
    have hdown := Path.isAbsolute_descend habsolute names
    have hnolink {e : Entry} (he : place.files.entry? (location ++ names ++ [n]) = some e) :
        e.isLink = false := by
      rw [List.append_assoc, ← below?_eq h] at he
      cases e with
      | link target => exact absurd he (hfree _ target)
      | file _ | dir _ => rfl
    rw [Path.descend_append, below?_eq h]
    simp only [← List.append_assoc]
    show place.files.resolve place.cwd ((root.descend names).child n) = .ok found ↔ _
    constructor
    · intro hfound
      obtain ⟨hlegal, above, inside, e, habove, hinside, hfind, hend⟩ :=
        FileSystem.exists_of_resolve_child hdown hfound
      obtain ⟨rfl, -, hlegals⟩ := ih.mp habove
      have he := (FileSystem.entry?_concat hinside n).trans hfind
      refine ⟨hend (hnolink he), Option.isSome_of_eq_some he, ?_⟩
      intro m hm
      rcases List.mem_append.mp hm with hm | hm
      · exact hlegals m hm
      · exact List.mem_singleton.mp hm ▸ hlegal
    · rintro ⟨rfl, hsome, hlegals⟩
      obtain ⟨e, he⟩ := Option.isSome_iff_exists.mp hsome
      obtain ⟨inside, hinside⟩ := FileSystem.exists_listing?_of_entry? (List.cons_ne_nil n []) he
      have hthere : (place.below? root names).isSome := by
        rw [below?_eq h, FileSystem.entry?_eq_dir_iff.mpr hinside]
        rfl
      have habove := ih.mpr ⟨rfl, hthere, fun m hm => hlegals m (List.mem_append_left _ hm)⟩
      have hfind := (FileSystem.entry?_concat hinside n).symm.trans he
      exact FileSystem.resolve_child hdown (hlegals n (by simp)) habove hinside hfind (hnolink he)

/-- So it leads to what is there. -/
theorem find?_descend_iff (habsolute : root.isAbsolute) (hfree : place.LinkFreeBelow root) :
    place.find? (root.descend names) = some e ↔
      place.below? root names = some e ∧ ∀ n ∈ names, n.Legal := by
  have hfind : place.find? (root.descend names) = some e ↔
      ∃ found, place.files.resolve place.cwd (root.descend names) = .ok found ∧
        place.files.entry? found = some e := by
    unfold find? FileSystem.find?
    split
    · next found hfound => simp [hfound]
    · next fault hfault => simp [hfault]
  rw [hfind]
  constructor
  · rintro ⟨found, hfound, he⟩
    obtain ⟨location, h⟩ := exists_resolve_of_descend habsolute hfound
    obtain ⟨rfl, -, hlegals⟩ := (resolve_descend_iff habsolute hfree h).mp hfound
    rw [below?_eq h]
    exact ⟨he, hlegals⟩
  · rintro ⟨he, hlegals⟩
    obtain ⟨location, h⟩ := exists_resolve_of_below? he
    refine ⟨location ++ names, (resolve_descend_iff habsolute hfree h).mpr
      ⟨rfl, Option.isSome_of_eq_some he, hlegals⟩, ?_⟩
    rw [← below?_eq h]
    exact he

/-- The bytes that are read are those of what the path leads to. -/
theorem readOrNothing_eq_bytes (place : Place) (p : Path) :
    place.readOrNothing p = ((place.find? p).map Entry.bytes).getD [] := by
  unfold readOrNothing read FileSystem.read find? FileSystem.find?
  cases place.files.resolve place.cwd p with
  | error fault => rfl
  | ok found =>
    simp only [FileSystem.ok_bind]
    cases place.files.entry? found with
    | none => rfl
    | some e => cases e <;> rfl

/-! ## Two places -/

/-- The names lead to entries of the same kind with the same content, or to nothing in either. -/
def SameBelow (place other : Place) (root : Path) (names : List Name) : Prop :=
  (other.below? root names).map Entry.surface = (place.below? root names).map Entry.surface

theorem SameBelow.symm (h : place.SameBelow other root names) : other.SameBelow place root names :=
  Eq.symm h

/-- Where an entry looks the same, what the path leads to does. -/
theorem SameBelow.find?_eq (h : place.SameBelow other root names) (habsolute : root.isAbsolute)
    (hfree : place.LinkFreeBelow root) (hother : other.LinkFreeBelow root) :
    (other.find? (root.descend names)).map Entry.surface =
      (place.find? (root.descend names)).map Entry.surface := by
  have hmap {place : Place} (hfree : place.LinkFreeBelow root) (seen : Entry) :
      (place.find? (root.descend names)).map Entry.surface = some seen ↔
        (place.below? root names).map Entry.surface = some seen ∧ ∀ n ∈ names, n.Legal := by
    simp only [Option.map_eq_some_iff, find?_descend_iff habsolute hfree, ← exists_and_right,
      and_right_comm]
  apply Option.ext
  intro seen
  rw [hmap hother, hmap hfree, h]

/-- It is found in both places or in neither. -/
theorem SameBelow.exists?_eq (h : place.SameBelow other root names) (habsolute : root.isAbsolute)
    (hfree : place.LinkFreeBelow root) (hother : other.LinkFreeBelow root) :
    other.exists? (root.descend names) = place.exists? (root.descend names) := by
  rw [exists?, exists?, ← Option.isSome_map (f := Entry.surface), h.find?_eq habsolute hfree hother,
    Option.isSome_map]

/-- The same bytes are read from it. -/
theorem SameBelow.readOrNothing_eq (h : place.SameBelow other root names)
    (habsolute : root.isAbsolute) (hfree : place.LinkFreeBelow root)
    (hother : other.LinkFreeBelow root) :
    other.readOrNothing (root.descend names) = place.readOrNothing (root.descend names) := by
  rw [readOrNothing_eq_bytes, readOrNothing_eq_bytes,
    Entry.map_congr_of_surface Entry.bytes_surface (h.find?_eq habsolute hfree hother)]

/-! ## Writing one file -/

/-- The place in which one file is written. -/
def written (place : Place) (location : Location) (n : Name) (text : String) : Place :=
  { place with files := place.files.putFile location n (.literal (Utf8.encode text)) }

/-- But for that file all looks as it did. -/
theorem surface_written {spot : Location} {n : Name} {text : String}
    (hdir : (place.files.listing? location).isSome)
    (hfile : (place.files.entry? (location ++ [n])).any Entry.isDir = false)
    (hne : spot ≠ location ++ [n]) :
    (FileSystem.entry? (place.written location n text).files spot).map Entry.surface =
      (place.files.entry? spot).map Entry.surface := by
  obtain ⟨inside, hinside⟩ := Option.isSome_iff_exists.mp hdir
  refine FileSystem.surface_putFile hinside ?_ hne
  intro within hwithin
  rw [FileSystem.entry?_concat hinside, hwithin] at hfile
  cases hfile

end Place

end IgnoreAtlas
