import IgnoreAtlas.FileSystem.Resolve
import Mathlib.Data.List.Basic

/-!
# Entries by their names

An entry of a tree is named by the names that lead to it through real directories. `Listing.entry?`
reads the names from the front, which suits a traversal, and `FileSystem.entry?` from the end, which
suits a location; `entry?_append` says that they agree.
-/

namespace IgnoreAtlas

namespace Listing

/-- The entry that is reached through these names, without following links. -/
def entry? (listing : Listing) : List Name → Option Entry
  | [] => some (.dir listing)
  | n :: names =>
    match listing.find? n with
    | some (.dir inside) => inside.entry? names
    | some other => if names = [] then some other else none
    | none => none

theorem find?_cons (n m : Name) (e : Entry) (rest : Listing) :
    (cons n e rest).find? m = if n = m then some e else rest.find? m := by
  cases e <;> rfl

theorem mem_names_of_find? {n : Name} {e : Entry} {l : Listing} (h : l.find? n = some e) :
    n ∈ l.names := by
  induction l with
  | empty => cases h
  | file k _ rest ih | link k _ rest ih | dir k _ rest _ ih =>
    unfold find? at h
    split at h
    · next hk => exact List.mem_cons.mpr (.inl hk.symm)
    · exact List.mem_cons_of_mem _ (ih h)

/-- The entries of a listing with one more in front. -/
theorem exists_find?_cons_iff {p : Name → Entry → Prop} {k : Name} {e : Entry} {rest : Listing}
    (hk : k ∉ rest.names) :
    (∃ n e', (cons k e rest).find? n = some e' ∧ p n e') ↔
      p k e ∨ ∃ n e', rest.find? n = some e' ∧ p n e' := by
  constructor
  · rintro ⟨n, e', hfind, hp⟩
    rw [find?_cons] at hfind
    split at hfind
    · next hn => cases hfind; exact .inl (hn ▸ hp)
    · exact .inr ⟨n, e', hfind, hp⟩
  · rintro (hp | ⟨n, e', hfind, hp⟩)
    · exact ⟨k, e, by rw [find?_cons, if_pos rfl], hp⟩
    · have hne : k ≠ n := fun h => hk (h ▸ mem_names_of_find? hfind)
      exact ⟨n, e', by rw [find?_cons, if_neg hne, hfind], hp⟩

theorem descend_append (l : Listing) (names more : Location) :
    l.descend (names ++ more) = (l.descend names).bind (·.descend more) := by
  induction names generalizing l with
  | nil => rfl
  | cons n names ih =>
    simp only [List.cons_append, descend]
    split
    · exact ih _
    · rfl

theorem descend_singleton {l inside : Listing} {n : Name} :
    l.descend [n] = some inside ↔ l.find? n = some (.dir inside) := by
  unfold descend
  split
  · next m h => rw [h, descend, Option.some_inj, Option.some_inj, Entry.dir.injEq]
  · next hno => exact ⟨nofun, fun h => absurd h (hno inside)⟩

/-- Names stay distinct further down. -/
theorem Distinct.descend {l inside : Listing} {names : Location} (hl : l.Distinct)
    (h : l.descend names = some inside) : inside.Distinct := by
  induction names generalizing l with
  | nil => cases h; exact hl
  | cons n names ih =>
    unfold Listing.descend at h
    split at h
    · next m hm => exact ih (hl.inner_of_find? hm) h
    · cases h

theorem entry?_singleton (l : Listing) (n : Name) : l.entry? [n] = l.find? n := by
  rw [Listing.entry?]
  cases l.find? n with
  | none => rfl
  | some e => cases e <;> rfl

/-- By the first name: there is that entry, and if more names follow it is a directory. -/
theorem isSome_entry?_cons_iff {l : Listing} {n : Name} {rest : List Name} :
    (l.entry? (n :: rest)).isSome ↔
      ∃ e, l.find? n = some e ∧ (rest = [] ∨ ∃ m, e = .dir m ∧ (m.entry? rest).isSome) := by
  rw [Listing.entry?]
  cases l.find? n with
  | none => simp
  | some e =>
    cases e with
    | file _ | link _ => by_cases hnil : rest = [] <;> simp [hnil]
    | dir m =>
      by_cases hnil : rest = []
      · simp [hnil, Listing.entry?]
      · simp [hnil]

theorem entry?_append {l inside : Listing} {names : Location} (h : l.descend names = some inside)
    (more : List Name) : l.entry? (names ++ more) = inside.entry? more := by
  induction names generalizing l with
  | nil => cases h; rfl
  | cons n names ih =>
    unfold descend at h
    split at h
    · next m hm =>
      rw [List.cons_append, entry?, hm]
      exact ih h
    · cases h

/-- What is reached is an entry of the directory that all but the last name lead to. -/
theorem entry?_concat (l : Listing) (names : List Name) (n : Name) :
    l.entry? (names ++ [n]) = (l.descend names).bind (·.find? n) := by
  induction names generalizing l with
  | nil => exact entry?_singleton l n
  | cons m names ih =>
    rw [List.cons_append, descend, entry?]
    cases l.find? m with
    | none => rfl
    | some e =>
      cases e with
      | dir inside => exact ih inside
      | file content => simp
      | link target => simp

/-- What is above an entry is there too. -/
theorem isSome_entry?_of_append {l : Listing} {names more : List Name}
    (h : (l.entry? (names ++ more)).isSome) : (l.entry? names).isSome := by
  induction names generalizing l with
  | nil => rfl
  | cons n names ih =>
    rw [List.cons_append, entry?] at h
    rw [Listing.entry?]
    split at h
    · exact ih h
    · have hnil : names = [] := by
        by_contra hne
        simp [hne] at h
      rw [if_pos hnil]
      rfl
    · cases h

/-- What has something below it is a directory. -/
theorem exists_descend_of_entry? {l : Listing} {above names : List Name} (hne : names ≠ [])
    (h : (l.entry? (above ++ names)).isSome) : ∃ inside, l.descend above = some inside := by
  obtain ⟨front, n, rfl⟩ := (List.eq_nil_or_concat' names).resolve_left hne
  obtain ⟨e, he⟩ := Option.isSome_iff_exists.mp h
  rw [← List.append_assoc, entry?_concat, Option.bind_eq_some_iff] at he
  obtain ⟨deep, hdeep, -⟩ := he
  rw [descend_append, Option.bind_eq_some_iff] at hdeep
  exact hdeep.imp fun _ => And.left

end Listing

namespace FileSystem

variable {fs : FileSystem} {location : Location} {inside : Listing}

theorem distinct_of_listing? (h : fs.listing? location = some inside) : inside.Distinct :=
  fs.distinct.descend h

/-- The entries of a tree are those of its top. -/
theorem entry?_eq (location : Location) : fs.entry? location = fs.top.entry? location := by
  rcases List.eq_nil_or_concat' location with rfl | ⟨above, n, rfl⟩
  · rfl
  · simp only [FileSystem.entry?, List.getLast?_append, List.getLast?_singleton, Option.some_or,
      List.dropLast_concat, Listing.entry?_concat]
    rfl

/-- The entries below a directory are those of its listing. -/
theorem entry?_append (h : fs.listing? location = some inside) (names : List Name) :
    fs.entry? (location ++ names) = inside.entry? names := by
  rw [FileSystem.entry?_eq, Listing.entry?_append h]

end FileSystem

end IgnoreAtlas
