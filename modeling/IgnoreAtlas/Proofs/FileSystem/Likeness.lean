import IgnoreAtlas.FileSystem.Edit
import IgnoreAtlas.Proofs.FileSystem.Walking

/-!
# Trees that look alike

Two trees are compared entry by entry, by the names that lead to an entry. The *surface* of an entry
is what is seen of it without going in: what a file holds, where a link leads, or that it is a
directory. Its *outline* leaves out what a file holds as well.

A walk reads outlines only. What it finds in one tree it finds in every tree that has the same
entries in outline, and perhaps more of them (`walk_of_within`). So a path leads where it did when a
file is written, or one is added (`within_putFile`); nothing but that file is changed
(`surface_putFile`).
-/

namespace IgnoreAtlas

namespace Entry

/-- What is seen of the entry without going in. -/
def surface : Entry → Entry
  | file content => file content
  | link target => link target
  | dir _ => dir .empty

/-- What kind of entry it is, and where a link leads. -/
def outline : Entry → Entry
  | file _ => file (.literal [])
  | link target => link target
  | dir _ => dir .empty

variable {e other : Entry}

@[simp] theorem outline_surface (e : Entry) : e.surface.outline = e.outline := by
  cases e <;> rfl

theorem outline_eq_of_surface_eq (h : e.surface = other.surface) : e.outline = other.outline := by
  rw [← outline_surface, h, outline_surface]

theorem outline_eq_dir {inside : Listing} (h : e.outline = (dir inside).outline) :
    ∃ within, e = dir within := by
  cases e with
  | dir within => exact ⟨within, rfl⟩
  | file _ | link _ => cases h

theorem outline_eq_file {content : Content} (h : e.outline = (file content).outline) :
    ∃ held, e = file held := by
  cases e with
  | file held => exact ⟨held, rfl⟩
  | dir _ | link _ => cases h

theorem outline_eq_link {target : Path} (h : e.outline = (link target).outline) :
    e = link target := by
  cases e with
  | link _ => exact h
  | dir _ | file _ => cases h

end Entry

namespace FileSystem

variable {fs other : FileSystem} {links : Nat} {location found cwd : Location} {step : Step}
  {steps : List Step} {inside : Listing} {n : Name}

/-! ## What a walk reads -/

/-- What is in the first tree is in the second, of the same kind and in the same place. -/
def Within (fs other : FileSystem) : Prop :=
  ∀ location e, fs.entry? location = some e →
    ∃ e', other.entry? location = some e' ∧ e'.outline = e.outline

/-- A directory of the first tree is one of the second, with what is in it. -/
theorem Within.listing? (h : fs.Within other) (hinside : fs.listing? location = some inside) :
    ∃ inside', other.listing? location = some inside' ∧
      ∀ n e, inside.find? n = some e → ∃ e', inside'.find? n = some e' ∧ e'.outline = e.outline := by
  obtain ⟨e', he', houtline⟩ := h location _ (entry?_eq_dir_iff.mpr hinside)
  obtain ⟨inside', rfl⟩ := Entry.outline_eq_dir houtline
  rw [entry?_eq_dir_iff] at he'
  refine ⟨inside', he', ?_⟩
  intro n e hfind
  rw [← entry?_concat hinside] at hfind
  rw [← entry?_concat he']
  exact h _ e hfind

/-- A move that can be made in the first tree is made in the second, and to the same place. -/
theorem move_of_within (h : fs.Within other) {moved : Nat × Location × List Step}
    (hmove : fs.move links location step = .ok moved) :
    other.move links location step = .ok moved := by
  unfold move at hmove ⊢
  cases hstand : fs.standing location with
  | error fault => rw [hstand] at hmove; cases hmove
  | ok inside =>
    obtain ⟨inside', hinside', hentries⟩ := h.listing? (standing_eq_ok.mp hstand)
    rw [hstand] at hmove
    rw [standing_eq_ok.mpr hinside']
    cases step with
    | stay | up => exact hmove
    | enter n =>
      simp only at hmove ⊢
      split at hmove
      · cases hmove
      · next hshort =>
        rw [if_neg hshort]
        cases hfind : inside.find? n with
        | none => rw [hfind] at hmove; cases hmove
        | some e =>
          obtain ⟨e', hfind', houtline⟩ := hentries n e hfind
          rw [hfind] at hmove
          rw [hfind']
          cases e with
          | file content => obtain ⟨_, rfl⟩ := Entry.outline_eq_file houtline; exact hmove
          | dir within => obtain ⟨_, rfl⟩ := Entry.outline_eq_dir houtline; exact hmove
          | link target => obtain rfl := Entry.outline_eq_link houtline; exact hmove

/-- What a walk finds in the first tree it finds in the second. -/
theorem walk_of_within (h : fs.Within other)
    (hwalk : fs.walk false links location steps = .ok found) :
    other.walk false links location steps = .ok found := by
  induction links, location, steps using walk_induction fs with
  | done links location => rwa [walk_nil] at hwalk ⊢
  | go links location step steps ih =>
    obtain ⟨left, next, more, hmove, hrest⟩ := walk_cons_eq_ok hwalk
    rw [walk_cons, move_of_within h hmove]
    exact ih left next more hmove hrest

end FileSystem

/-! ## Writing one file -/

namespace Listing

variable {l inside : Listing} {n m : Name} {above names : List Name} {content : Content}

theorem find?_set (l : Listing) (n m : Name) (e : Entry) :
    (l.set n e).find? m = if n = m then some e else l.find? m := by
  induction l with
  | empty =>
    rw [set, find?_cons]
  | file k _ rest ih | link k _ rest ih | dir k _ rest _ ih =>
    unfold set
    split
    · next hk =>
      subst hk
      rw [find?_cons]
      by_cases hm : k = m <;> simp [find?, hm]
    · next hk =>
      simp only [find?, ih]
      by_cases hm : k = m
      · have hne : n ≠ m := fun heq => hk (hm.trans heq.symm)
        simp [hm, hne]
      · simp [hm]

/-- A file that is written is there. -/
theorem entry?_modify_self (h : l.descend above = some inside) :
    Listing.entry? (l.modify (·.set n (.file content)) above) (above ++ [n]) =
      some (.file content) := by
  induction above generalizing l with
  | nil => simp [modify, entry?_singleton, find?_set]
  | cons k above ih =>
    unfold descend at h
    split at h
    · next within hfind =>
      rw [modify, hfind, List.cons_append, entry?, find?_set, if_pos rfl]
      exact ih h
    · cases h

/-- Whatever else there is stays as it is. -/
theorem surface_modify (h : l.descend above = some inside)
    (hn : ∀ within, inside.find? n ≠ some (.dir within)) (hne : names ≠ above ++ [n]) :
    (Listing.entry? (l.modify (·.set n (.file content)) above) names).map Entry.surface =
      (l.entry? names).map Entry.surface := by
  induction above generalizing l names with
  | nil =>
    cases h
    cases names with
    | nil => rfl
    | cons m rest =>
      rw [modify, entry?, entry?, find?_set]
      by_cases hm : n = m
      · -- Nothing is below a file, and nothing was below what it stands for.
        subst hm
        have hrest : rest ≠ [] := fun hnil => hne (by rw [hnil, List.nil_append])
        rw [if_pos rfl]
        simp only [if_neg hrest]
        cases hfind : inside.find? n with
        | none => rfl
        | some e =>
          cases e with
          | dir within => exact absurd hfind (hn within)
          | file _ | link _ => rfl
      · rw [if_neg hm]
  | cons k above ih =>
    unfold descend at h
    split at h
    · next within hfind =>
      cases names with
      | nil => rfl
      | cons m rest =>
        rw [modify, hfind, entry?, entry?, find?_set]
        by_cases hm : k = m
        · subst hm
          rw [if_pos rfl, hfind]
          refine ih h ?_
          rintro rfl
          exact hne rfl
        · rw [if_neg hm]
    · cases h

end Listing

namespace FileSystem

variable {fs : FileSystem} {location place : Location} {inside : Listing} {n : Name}
  {content : Content}

/-- A file that is written is there. -/
theorem entry?_putFile_self (h : fs.listing? location = some inside) :
    FileSystem.entry? (fs.putFile location n content) (location ++ [n]) = some (.file content) := by
  rw [entry?_eq]
  exact Listing.entry?_modify_self h

/-- Where no directory is replaced, writing a file changes nothing else. -/
theorem surface_putFile (h : fs.listing? location = some inside)
    (hn : ∀ within, inside.find? n ≠ some (.dir within)) (hne : place ≠ location ++ [n]) :
    (FileSystem.entry? (fs.putFile location n content) place).map Entry.surface =
      (fs.entry? place).map Entry.surface := by
  rw [entry?_eq, entry?_eq]
  exact Listing.surface_modify h hn hne

/-- Where nothing but a file is replaced, writing a file leaves everything of its kind. -/
theorem within_putFile (h : fs.listing? location = some inside)
    (hn : ∀ e, inside.find? n = some e → ∃ held, e = .file held) :
    fs.Within (fs.putFile location n content) := by
  intro place e he
  by_cases hplace : place = location ++ [n]
  · subst hplace
    rw [entry?_concat h] at he
    obtain ⟨held, rfl⟩ := hn e he
    exact ⟨.file content, entry?_putFile_self h, rfl⟩
  · have hdir (within : Listing) : inside.find? n ≠ some (.dir within) := fun hfind =>
      nomatch hn _ hfind
    have hsame : (FileSystem.entry? (fs.putFile location n content) place).map Entry.surface =
        (fs.entry? place).map Entry.surface := surface_putFile h hdir hplace
    rw [he, Option.map_some, Option.map_eq_some_iff] at hsame
    obtain ⟨e', he', hsurface⟩ := hsame
    exact ⟨e', he', Entry.outline_eq_of_surface_eq hsurface⟩

end FileSystem

end IgnoreAtlas
