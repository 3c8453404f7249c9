import IgnoreAtlas.Path.Basic

/-!
# Trees of files

The content of a directory is a `Listing`: a list of entries, each a file, a symbolic link, or a
directory with a listing of its own. The type is one plain inductive type (an entry, then the rest),
so a traversal that does not follow links is structural recursion.

`Listing.Distinct` says that no name occurs twice in one directory, at any depth. Placing an entry
and erasing one keep it.
-/

namespace IgnoreAtlas

/-- What a file holds. A long file of one repeated byte is kept as a count. -/
inductive Content
  | literal (bytes : Bytes)
  | fill (byte : UInt8) (count : Nat)
  deriving DecidableEq

namespace Content

/-- The bytes of the file. -/
def bytes : Content → Bytes
  | literal b => b
  | fill b n => List.replicate n b

/-- The number of bytes. -/
def size : Content → Nat
  | literal b => b.length
  | fill _ n => n

end Content

/-- The entries of a directory. -/
inductive Listing
  | empty
  | file (name : Name) (content : Content) (rest : Listing)
  | link (name : Name) (target : Path) (rest : Listing)
  | dir (name : Name) (inside rest : Listing)
  deriving DecidableEq

/-- What stands behind a name. -/
inductive Entry
  | file (content : Content)
  | link (target : Path)
  | dir (inside : Listing)
  deriving DecidableEq

namespace Entry

/-- The entry is a directory itself; a link to one is not. -/
def isDir : Entry → Bool
  | dir _ => true
  | _ => false

/-- The entry is a symbolic link. -/
def isLink : Entry → Bool
  | link _ => true
  | _ => false

end Entry

namespace Listing

/-- The names in the directory. -/
def names : Listing → List Name
  | empty => []
  | file n _ rest => n :: rest.names
  | link n _ rest => n :: rest.names
  | dir n _ rest => n :: rest.names

/-- The entry of that name. -/
def find? (name : Name) : Listing → Option Entry
  | empty => none
  | file n content rest => if n = name then some (.file content) else rest.find? name
  | link n target rest => if n = name then some (.link target) else rest.find? name
  | dir n inside rest => if n = name then some (.dir inside) else rest.find? name

/-- The directory with one entry in front. -/
def cons (name : Name) (entry : Entry) (rest : Listing) : Listing :=
  match entry with
  | .file content => file name content rest
  | .link target => link name target rest
  | .dir inside => dir name inside rest

/-- No name occurs twice, here or further down. -/
def Distinct : Listing → Prop
  | empty => True
  | file n _ rest => n ∉ rest.names ∧ rest.Distinct
  | link n _ rest => n ∉ rest.names ∧ rest.Distinct
  | dir n inside rest => n ∉ rest.names ∧ inside.Distinct ∧ rest.Distinct

instance decidableDistinct : ∀ l : Listing, Decidable l.Distinct
  | empty => .isTrue trivial
  | file n _ rest =>
    haveI := decidableDistinct rest
    inferInstanceAs (Decidable (n ∉ rest.names ∧ rest.Distinct))
  | link n _ rest =>
    haveI := decidableDistinct rest
    inferInstanceAs (Decidable (n ∉ rest.names ∧ rest.Distinct))
  | dir n inside rest =>
    haveI := decidableDistinct inside
    haveI := decidableDistinct rest
    inferInstanceAs (Decidable (n ∉ rest.names ∧ inside.Distinct ∧ rest.Distinct))

/-- The entry at that name becomes `entry`; a new name goes to the end. -/
def set (name : Name) (entry : Entry) : Listing → Listing
  | empty => cons name entry empty
  | file n content rest =>
    if n = name then cons name entry rest else file n content (rest.set name entry)
  | link n target rest =>
    if n = name then cons name entry rest else link n target (rest.set name entry)
  | dir n inside rest =>
    if n = name then cons name entry rest else dir n inside (rest.set name entry)

/-- The directory without that name. -/
def erase (name : Name) : Listing → Listing
  | empty => empty
  | file n content rest => if n = name then rest else file n content (rest.erase name)
  | link n target rest => if n = name then rest else link n target (rest.erase name)
  | dir n inside rest => if n = name then rest else dir n inside (rest.erase name)

/-- The directory that is reached through these names, without following links. -/
def descend (listing : Listing) : Location → Option Listing
  | [] => some listing
  | n :: names =>
    match listing.find? n with
    | some (.dir inside) => inside.descend names
    | _ => none

/-- The listing with `change` made to the directory that these names lead to. -/
def modify (change : Listing → Listing) (listing : Listing) : Location → Listing
  | [] => change listing
  | n :: names =>
    match listing.find? n with
    | some (.dir inside) => listing.set n (.dir (inside.modify change names))
    | _ => listing

/-! ## Names stay distinct -/

theorem names_cons (n : Name) (e : Entry) (l : Listing) : (cons n e l).names = n :: l.names := by
  cases e <;> rfl

/-- The entry holds no name twice. -/
def Inner : Entry → Prop
  | .dir inside => inside.Distinct
  | _ => True

theorem distinct_cons {n : Name} {e : Entry} {l : Listing} :
    (cons n e l).Distinct ↔ n ∉ l.names ∧ Inner e ∧ l.Distinct := by
  cases e <;> simp [cons, Distinct, Inner]

theorem mem_names_set {m n : Name} {e : Entry} {l : Listing} :
    m ∈ (l.set n e).names ↔ m = n ∨ m ∈ l.names := by
  induction l with
  | empty => simp [set, names_cons, names]
  | file k _ rest ih | link k _ rest ih | dir k _ rest _ ih =>
    unfold set
    split
    · next h => subst h; simp [names_cons, names]
    · simp only [names, List.mem_cons, ih]; grind

theorem mem_names_erase {m n : Name} {l : Listing} (h : m ∈ (l.erase n).names) : m ∈ l.names := by
  induction l with
  | empty => exact h
  | file k _ rest ih | link k _ rest ih | dir k _ rest _ ih =>
    unfold erase at h
    split at h
    · simp [names, h]
    · simp only [names, List.mem_cons] at h ⊢
      exact h.imp id ih

theorem Distinct.set {n : Name} {e : Entry} {l : Listing} (hl : l.Distinct) (he : Inner e) :
    (l.set n e).Distinct := by
  induction l with
  | empty => simp [Listing.set, distinct_cons, names, he, Distinct]
  | file k _ rest ih | link k _ rest ih =>
    unfold Listing.set
    split
    · next h => subst h; exact distinct_cons.2 ⟨hl.1, he, hl.2⟩
    · next h => exact ⟨by simp [mem_names_set, h, hl.1], ih hl.2⟩
  | dir k _ rest _ ih =>
    unfold Listing.set
    split
    · next h => subst h; exact distinct_cons.2 ⟨hl.1, he, hl.2.2⟩
    · next h => exact ⟨by simp [mem_names_set, h, hl.1], hl.2.1, ih hl.2.2⟩

theorem Distinct.erase {n : Name} {l : Listing} (hl : l.Distinct) : (l.erase n).Distinct := by
  induction l with
  | empty => trivial
  | file k _ rest ih | link k _ rest ih =>
    unfold Listing.erase
    split
    · exact hl.2
    · exact ⟨fun h => hl.1 (mem_names_erase h), ih hl.2⟩
  | dir k _ rest _ ih =>
    unfold Listing.erase
    split
    · exact hl.2.2
    · exact ⟨fun h => hl.1 (mem_names_erase h), hl.2.1, ih hl.2.2⟩

theorem Distinct.inner_of_find? {n : Name} {e : Entry} {l : Listing} (hl : l.Distinct)
    (h : l.find? n = some e) : Inner e := by
  induction l with
  | empty => simp [find?] at h
  | file k _ rest ih =>
    unfold find? at h
    split at h
    · cases h; trivial
    · exact ih hl.2 h
  | link k _ rest ih =>
    unfold find? at h
    split at h
    · cases h; trivial
    · exact ih hl.2 h
  | dir k _ rest _ ih =>
    unfold find? at h
    split at h
    · cases h; exact hl.2.1
    · exact ih hl.2.2 h

/-- A change that keeps names distinct in one directory keeps them distinct in the tree. -/
theorem Distinct.modify {change : Listing → Listing}
    (hc : ∀ l : Listing, l.Distinct → (change l).Distinct) (names : Location) {l : Listing}
    (hl : l.Distinct) : (l.modify change names).Distinct := by
  induction names generalizing l with
  | nil => exact hc l hl
  | cons n names ih =>
    unfold Listing.modify
    split
    · next inside h => exact hl.set (ih (hl.inner_of_find? h))
    · exact hl

end Listing

end IgnoreAtlas
