import IgnoreAtlas.Place

/-!
# Repositories and the entries they ignore

A repository is known by its root directory: two repositories are the same when their roots are the
same path, whatever their names. An ignored entry is a path and whether it is a directory; an
ignored directory stands for everything below it.
-/

namespace IgnoreAtlas

/-- Of neighbours that are the same, only the first. -/
def dropRepeats {α : Type} (same : α → α → Bool) : List α → List α
  | [] => []
  | a :: rest =>
    match dropRepeats same rest with
    | [] => [a]
    | b :: rest => if same a b then a :: rest else a :: b :: rest

theorem dropRepeats_sublist {α : Type} (same : α → α → Bool) :
    ∀ list : List α, (dropRepeats same list).Sublist list
  | [] => .slnil
  | a :: rest => by
    have hrest := dropRepeats_sublist same rest
    rw [dropRepeats]
    split
    · exact List.singleton_sublist.mpr List.mem_cons_self
    · next b more hb =>
      rw [hb] at hrest
      split
      · exact ((List.sublist_cons_self b more).trans hrest).cons_cons a
      · exact hrest.cons_cons a

/-- A repository of a workspace. The name is only for show. -/
structure Repository where
  name : String
  root : Path
  deriving DecidableEq

namespace Repository

/-- The name of a repository whose root has no name that is text. -/
def unnamed : String := "Unknown"

/-- The repository with that root, named after the last component. -/
def ofRoot (root : Path) : Repository :=
  ⟨(root.fileName?.bind fun n => Utf8.decode? n.bytes).getD unnamed, root⟩

/-- The two have one root. -/
def same (a b : Repository) : Bool := a.root.same b.root

/-- Repositories are ordered by their roots. -/
def le (a b : Repository) : Bool := a.root.le b.root

theorem le_trans (a b c : Repository) : a.le b → b.le c → a.le c := Path.le_trans

theorem le_total (a b : Repository) : a.le b || b.le a := Path.le_total a.root b.root

/-- Of repositories in their order, those that are kept are behind one another. -/
theorem pairwise_dropRepeats :
    ∀ {list : List Repository}, (list.Pairwise fun a b => a.le b) →
      (dropRepeats same list).Pairwise fun a b => a.root.key < b.root.key
  | [], _ => .nil
  | a :: rest, h => by
    obtain ⟨ha, hrest⟩ := List.pairwise_cons.mp h
    have hkept := pairwise_dropRepeats hrest
    have hsub := dropRepeats_sublist same rest
    rw [dropRepeats]
    split
    · exact List.pairwise_singleton _ _
    · next b more hb =>
      rw [hb] at hkept hsub
      obtain ⟨hbehind, hmore⟩ := List.pairwise_cons.mp hkept
      split
      · next hsame =>
        have hkey : a.root.key = b.root.key := Path.key_inj.mpr (Path.same_iff.mp hsame)
        exact List.pairwise_cons.mpr ⟨fun c hc => hkey ▸ hbehind c hc, hmore⟩
      · next hsame =>
        have hab : a.root.key < b.root.key :=
          Path.lt_of_le (ha b (hsub.subset List.mem_cons_self)) hsame
        refine List.pairwise_cons.mpr ⟨fun c hc => ?_, hkept⟩
        rcases List.mem_cons.mp hc with rfl | hc
        · exact hab
        · exact List.lt_trans hab (hbehind c hc)

/-- For each repository one with its root is kept. -/
theorem exists_mem_dropRepeats {a : Repository} :
    ∀ {list : List Repository}, a ∈ list →
      ∃ b ∈ dropRepeats same list, b.root.components = a.root.components
  | c :: rest, h => by
    have hrest (hm : a ∈ rest) := exists_mem_dropRepeats hm
    rw [dropRepeats]
    split
    · next hnil =>
      rw [hnil] at hrest
      rcases List.mem_cons.mp h with rfl | hm
      · exact ⟨a, List.mem_cons_self, rfl⟩
      · obtain ⟨_, hb, _⟩ := hrest hm
        exact absurd hb List.not_mem_nil
    · next b more hb =>
      rw [hb] at hrest
      split
      · next hsame =>
        rcases List.mem_cons.mp h with rfl | hm
        · exact ⟨a, List.mem_cons_self, rfl⟩
        · obtain ⟨d, hd, heq⟩ := hrest hm
          rcases List.mem_cons.mp hd with rfl | hd
          · exact ⟨c, List.mem_cons_self, (Path.same_iff.mp hsame).trans heq⟩
          · exact ⟨d, List.mem_cons_of_mem _ hd, heq⟩
      · rcases List.mem_cons.mp h with rfl | hm
        · exact ⟨a, List.mem_cons_self, rfl⟩
        · obtain ⟨d, hd, heq⟩ := hrest hm
          exact ⟨d, List.mem_cons_of_mem _ hd, heq⟩

end Repository

/-- A file or directory that is ignored. -/
structure IgnoredEntry where
  path : Path
  isDirectory : Bool
  deriving DecidableEq

namespace IgnoredEntry

/-- The entry at a path, a directory if the path leads to one. -/
def ofPath (place : Place) (p : Path) : IgnoredEntry := ⟨p, place.isDir p⟩

/-- The two are one entry. -/
def same (a b : IgnoredEntry) : Bool := a.path.same b.path && a.isDirectory == b.isDirectory

/-- Entries are ordered by their paths; of one path, the file comes first. -/
def le (a b : IgnoredEntry) : Bool :=
  if a.path.same b.path then !a.isDirectory || b.isDirectory else a.path.le b.path

/-- The entries in their order. -/
def sort (entries : List IgnoredEntry) : List IgnoredEntry := entries.mergeSort le

end IgnoredEntry

end IgnoreAtlas
