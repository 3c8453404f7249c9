import IgnoreAtlas.Proofs.FileSystem.Walking
import Mathlib.Data.List.Nodup

/-!
# The files of a tree

`Listing.files` lists the files in a directory and below it, each with the names that lead to it and
what it holds. These are the entries that are files (`mem_files_iff`), and each is listed once
(`nodup_files`).

A tree can be free of links, and then it makes no difference whether a walk follows a link at its end
(`locate_of_linkFree`).
-/

namespace IgnoreAtlas

namespace Listing

/-- The files in the directory and below it, by the names that lead to them. -/
def files : Listing → List (Location × Content)
  | empty => []
  | file n content rest => ([n], content) :: rest.files
  | link _ _ rest => rest.files
  | dir n inside rest => (inside.files.map fun f => (n :: f.1, f.2)) ++ rest.files

/-- There is no link in the directory or below it. -/
def linkFree : Listing → Bool
  | empty => true
  | file _ _ rest => rest.linkFree
  | link _ _ _ => false
  | dir _ inside rest => inside.linkFree && rest.linkFree

end Listing

namespace Entry

/-- The files at the entry or below it. -/
def files : Entry → List (Location × Content)
  | file content => [([], content)]
  | link _ => []
  | dir inside => inside.files

/-- The entry is no link, and there is none below it. -/
def linkFree : Entry → Bool
  | file _ => true
  | link _ => false
  | dir inside => inside.linkFree

end Entry

namespace Listing

variable {l : Listing} {n : Name} {names : List Name} {content : Content} {e : Entry}

/-! ## Entry by entry -/

theorem files_cons (n : Name) (e : Entry) (rest : Listing) :
    (cons n e rest).files = (e.files.map fun f => (n :: f.1, f.2)) ++ rest.files := by
  cases e <;> rfl

theorem linkFree_of_find? (h : l.linkFree) (hfind : l.find? n = some e) : e.linkFree := by
  induction l with
  | empty => cases hfind
  | file k c rest ih =>
    unfold find? at hfind
    split at hfind
    · cases hfind; rfl
    · exact ih h hfind
  | link k target rest ih => cases h
  | dir k inside rest _ ih =>
    rw [linkFree, Bool.and_eq_true] at h
    unfold find? at hfind
    split at hfind
    · cases hfind; exact h.1
    · exact ih h.2 hfind

/-- A file in a directory is a file at one of the entries or below it. -/
theorem mem_files_iff_exists (hl : l.Distinct) {f : Location × Content} :
    f ∈ l.files ↔ ∃ n e, l.find? n = some e ∧ ∃ g ∈ e.files, f = (n :: g.1, g.2) := by
  have hcons {k : Name} {e : Entry} {rest : Listing} (hk : k ∉ rest.names)
      (ih : f ∈ rest.files ↔ ∃ n e, rest.find? n = some e ∧ ∃ g ∈ e.files, f = (n :: g.1, g.2)) :
      f ∈ (cons k e rest).files ↔
        ∃ n e', (cons k e rest).find? n = some e' ∧ ∃ g ∈ e'.files, f = (n :: g.1, g.2) := by
    rw [files_cons, List.mem_append, ih, exists_find?_cons_iff hk, List.mem_map]
    simp only [eq_comm]
  induction l with
  | empty => exact ⟨nofun, fun ⟨_, _, hfind, _⟩ => by cases hfind⟩
  | file k c rest ih => exact hcons (e := .file c) hl.1 (ih hl.2)
  | link k target rest ih => exact hcons (e := .link target) hl.1 (ih hl.2)
  | dir k inside rest _ ih => exact hcons (e := .dir inside) hl.1 (ih hl.2.2)

/-- The files of a directory are the entries below it that are files. -/
theorem mem_files_iff (hl : l.Distinct) :
    (names, content) ∈ l.files ↔ l.entry? names = some (.file content) := by
  induction names generalizing l with
  | nil =>
    rw [mem_files_iff_exists hl]
    simp [Listing.entry?]
  | cons n names ih =>
    have hfirst : (n :: names, content) ∈ l.files ↔
        ∃ e, l.find? n = some e ∧ (names, content) ∈ e.files := by
      rw [mem_files_iff_exists hl]
      constructor
      · rintro ⟨m, e, hfind, ⟨g, c⟩, hg, heq⟩
        rw [Prod.mk.injEq, List.cons.injEq] at heq
        obtain ⟨⟨rfl, rfl⟩, rfl⟩ := heq
        exact ⟨e, hfind, hg⟩
      · rintro ⟨e, hfind, hg⟩
        exact ⟨n, e, hfind, (names, content), hg, rfl⟩
    rw [hfirst, Listing.entry?]
    cases hfind : l.find? n with
    | none => simp
    | some e =>
      cases e with
      | file c => simp [Entry.files, eq_comm]
      | link target => simp [Entry.files]
      | dir inside =>
        have hinside := hl.inner_of_find? hfind
        simpa [Entry.files] using ih hinside

/-- Each file is listed once. -/
theorem nodup_files (hl : l.Distinct) : l.files.Nodup := by
  -- No file behind the first entry is one of that entry.
  have happly {k : Name} {e : Entry} {rest : Listing} (hk : k ∉ rest.names) (he : e.files.Nodup)
      (hrest : rest.Distinct) (ih : rest.files.Nodup) : (cons k e rest).files.Nodup := by
    rw [files_cons, List.nodup_append']
    refine ⟨he.map ?_, ih, ?_⟩
    · rintro ⟨a, c⟩ ⟨b, d⟩ heq
      simpa using heq
    · intro f hfirst hbehind
      obtain ⟨g, -, rfl⟩ := List.mem_map.mp hfirst
      obtain ⟨n, e', hfind, g', -, heq⟩ := (mem_files_iff_exists hrest).mp hbehind
      rw [Prod.mk.injEq, List.cons.injEq] at heq
      rw [heq.1.1] at hk
      exact hk (mem_names_of_find? hfind)
  induction l with
  | empty => exact List.nodup_nil
  | file k c rest ih => exact happly (e := .file c) hl.1 (List.nodup_singleton _) hl.2 (ih hl.2)
  | link k target rest ih => exact ih hl.2
  | dir k inside rest ihInside ih =>
    exact happly (e := .dir inside) hl.1 (ihInside hl.2.1) hl.2.2 (ih hl.2.2)

/-- Without links nothing that is reached is a link. -/
theorem entry?_ne_link (h : l.linkFree) (target : Path) : l.entry? names ≠ some (.link target) := by
  induction names generalizing l with
  | nil => simp [Listing.entry?]
  | cons n names ih =>
    rw [Listing.entry?]
    cases hfind : l.find? n with
    | none => simp
    | some e =>
      have he := linkFree_of_find? h hfind
      cases e with
      | file c => simp
      | link other => cases he
      | dir inside => exact ih he

end Listing

namespace FileSystem

variable {fs : FileSystem} {location : Location} {content : Content}

/-- All files of the tree, by where they are. -/
def allFiles (fs : FileSystem) : List (Location × Content) := fs.top.files

theorem mem_allFiles_iff :
    (location, content) ∈ fs.allFiles ↔ fs.entry? location = some (.file content) := by
  rw [entry?_eq]
  exact Listing.mem_files_iff fs.distinct

theorem nodup_allFiles (fs : FileSystem) : fs.allFiles.Nodup := Listing.nodup_files fs.distinct

/-- Nothing is below an entry that is no directory. -/
theorem eq_nil_of_entry?_append {names : List Name} {e other : Entry}
    (he : fs.entry? location = some e) (hplain : e.isDir = false)
    (hother : fs.entry? (location ++ names) = some other) : names = [] := by
  by_contra hne
  obtain ⟨inside, hinside⟩ := exists_listing?_of_entry? hne hother
  rw [← entry?_eq_dir_iff, he, Option.some_inj] at hinside
  rw [hinside] at hplain
  cases hplain

/-- The files at an entry or below it are those of the tree that its names begin. -/
theorem mem_files_iff_append {names : List Name} {e : Entry} (he : fs.entry? location = some e) :
    (names, content) ∈ e.files ↔ fs.entry? (location ++ names) = some (.file content) := by
  cases e with
  | dir inside =>
    have hinside := entry?_eq_dir_iff.mp he
    rw [entry?_append hinside, Entry.files, Listing.mem_files_iff (distinct_of_listing? hinside)]
  | file c =>
    constructor
    · intro h
      rw [Entry.files, List.mem_singleton, Prod.mk.injEq] at h
      rw [h.1, h.2, List.append_nil, he]
    · intro h
      obtain rfl := eq_nil_of_entry?_append he rfl h
      rw [List.append_nil, he] at h
      cases h
      exact List.mem_singleton_self _
  | link target =>
    refine ⟨nofun, ?_⟩
    intro h
    obtain rfl := eq_nil_of_entry?_append he rfl h
    rw [List.append_nil, he] at h
    cases h

/-- Put behind the names of the entry, they are the same list, in another order perhaps. -/
theorem perm_files {e : Entry} (he : fs.entry? location = some e) :
    (e.files.map fun f => (location ++ f.1, f.2)).Perm
      (fs.allFiles.filter fun f => location.isPrefixOf f.1) := by
  have hinjective : Function.Injective fun f : Location × Content => (location ++ f.1, f.2) := by
    rintro ⟨a, c⟩ ⟨b, d⟩ heq
    simpa using heq
  have hnodup : e.files.Nodup := by
    cases e with
    | file c => exact List.nodup_singleton _
    | link target => exact List.nodup_nil
    | dir inside => exact Listing.nodup_files (distinct_of_listing? (entry?_eq_dir_iff.mp he))
  rw [List.perm_ext_iff_of_nodup (hnodup.map hinjective) (fs.nodup_allFiles.filter _)]
  rintro ⟨names, content⟩
  rw [List.mem_map, List.mem_filter, mem_allFiles_iff, List.isPrefixOf_iff_prefix]
  constructor
  · rintro ⟨⟨below, c⟩, hbelow, heq⟩
    obtain ⟨rfl, rfl⟩ := Prod.mk.inj heq
    exact ⟨(mem_files_iff_append he).mp hbelow, List.prefix_append location below⟩
  · rintro ⟨hfile, below, rfl⟩
    exact ⟨(below, content), (mem_files_iff_append he).mpr hfile, rfl⟩

/-- Where nothing is no file is below. -/
theorem filter_allFiles_of_none (h : fs.entry? location = none) :
    fs.allFiles.filter (fun f => location.isPrefixOf f.1) = [] := by
  rw [List.filter_eq_nil_iff]
  rintro ⟨names, content⟩ hfile habove
  have hreal : fs.Real names := ⟨_, mem_allFiles_iff.mp hfile, rfl⟩
  obtain ⟨e, he, -⟩ := hreal.of_prefix (List.isPrefixOf_iff_prefix.mp habove)
  rw [h] at he
  cases he

/-! ## Without links -/

theorem entry?_ne_link (h : fs.top.linkFree) (target : Path) :
    fs.entry? location ≠ some (.link target) := by
  rw [entry?_eq]
  exact Listing.entry?_ne_link h target

/-- Every entry is real. -/
theorem real_of_linkFree (h : fs.top.linkFree) {e : Entry} (he : fs.entry? location = some e) :
    fs.Real location := by
  refine ⟨e, he, ?_⟩
  cases e with
  | file _ | dir _ => rfl
  | link target => exact absurd he (entry?_ne_link h target)

/-- Without links it makes no difference what becomes of them. -/
theorem walkWith_of_linkFree (h : fs.top.linkFree) {follow other : Location → List Step →
    Except Fault Location} {lastLink : Bool} (steps : List Step) :
    fs.walkWith lastLink follow location steps = fs.walkWith false other location steps := by
  induction steps generalizing location with
  | nil => rfl
  | cons step steps ih =>
    cases hstand : fs.standing location with
    | error fault => cases step <;> simp only [walkWith, hstand] <;> rfl
    | ok inside =>
      cases step with
      | stay | up => simp only [walkWith, hstand, ok_bind, ih]
      | enter n =>
        have hentry := entry?_concat (standing_eq_ok.mp hstand) n
        cases hfind : inside.find? n with
        | none => simp only [walkWith, hstand, ok_bind, hfind]
        | some e =>
          cases e with
          | file _ | dir _ => simp only [walkWith, hstand, ok_bind, hfind, ih]
          | link target =>
            rw [hfind] at hentry
            exact absurd hentry (entry?_ne_link h target)

/-- Without links it makes no difference whether the last one is followed. -/
theorem locate_of_linkFree (h : fs.top.linkFree) (cwd : Location) (p : Path) :
    fs.locate cwd true p = fs.resolve cwd p := by
  have hwalk (location : Location) (steps : List Step) :
      fs.walk true mostLinks location steps = fs.walk false mostLinks location steps :=
    walkWith_of_linkFree h steps
  rw [resolve, locate, locate, hwalk]

end FileSystem

end IgnoreAtlas
