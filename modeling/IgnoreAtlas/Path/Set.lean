import IgnoreAtlas.Path.Basic

/-!
# Sets of paths

A set holds a path once, however it is spelled; the spelling that came first stays. What a set
holds is asked for by components, so that an ancestor of a path needs no spelling.
-/

namespace IgnoreAtlas

/-- Paths, no two of them the same. -/
structure PathSet where
  paths : List Path
  distinct : (paths.map Path.components).Nodup

namespace PathSet

/-- The set that holds nothing. -/
def empty : PathSet := ⟨[], List.nodup_nil⟩

/-- The number of paths. -/
def size (set : PathSet) : Nat := set.paths.length

/-- The set holds the path with these components. -/
def contains (set : PathSet) (components : List Component) : Bool :=
  set.paths.any (·.components == components)

theorem contains_iff {set : PathSet} {components : List Component} :
    set.contains components ↔ components ∈ set.paths.map Path.components := by
  simp [contains]

/-- The set with one more path. -/
def insert (set : PathSet) (p : Path) : PathSet :=
  if h : set.contains p.components then set
  else
    { paths := set.paths ++ [p]
      distinct := by
        rw [List.map_append, List.map_singleton, List.nodup_append]
        refine ⟨set.distinct, by simp, fun a ha b hb hab => h ?_⟩
        rw [List.mem_singleton.mp hb] at hab
        exact contains_iff.mpr (hab ▸ ha) }

/-- The set of these paths. -/
def ofList (paths : List Path) : PathSet := paths.foldl insert empty

/-- The set holds one of these ancestors of a path, of those that are the root or below it. -/
def holdsBelow (set : PathSet) (root : Path) (ancestors : List (List Component)) : Bool :=
  (ancestors.takeWhile root.components.isPrefixOf).any set.contains

@[simp] theorem contains_empty (components : List Component) :
    empty.contains components = false := rfl

theorem insert_of_contains {set : PathSet} {p : Path} (h : set.contains p.components) :
    set.insert p = set := by
  rw [insert, dif_pos h]

theorem paths_insert_of_not_contains {set : PathSet} {p : Path} (h : ¬set.contains p.components) :
    (set.insert p).paths = set.paths ++ [p] := by
  rw [insert, dif_neg h]

theorem mem_paths_insert {set : PathSet} {p q : Path} (h : p ∈ (set.insert q).paths) :
    p ∈ set.paths ∨ p = q := by
  unfold insert at h
  split at h
  · exact .inl h
  · exact (List.mem_append.mp h).imp_right List.mem_singleton.mp

theorem contains_insert {set : PathSet} {p : Path} {components : List Component} :
    (set.insert p).contains components ↔ p.components = components ∨ set.contains components := by
  unfold insert
  split
  · next h => exact ⟨.inr, fun hc => hc.elim (fun he => he ▸ h) id⟩
  · simp [contains, or_comm]

theorem contains_foldl_insert {paths : List Path} {set : PathSet} {components : List Component} :
    (paths.foldl insert set).contains components ↔
      set.contains components ∨ components ∈ paths.map Path.components := by
  induction paths generalizing set with
  | nil => simp
  | cons p paths ih =>
    rw [List.foldl_cons, ih, contains_insert, List.map_cons, List.mem_cons, @eq_comm _ components]
    exact ⟨fun h => h.elim (fun h => h.elim (.inr ∘ .inl) .inl) (.inr ∘ .inr),
      fun h => h.elim (.inl ∘ .inr) fun h => h.elim (.inl ∘ .inl) .inr⟩

theorem contains_ofList {paths : List Path} {components : List Component} :
    (ofList paths).contains components ↔ components ∈ paths.map Path.components := by
  simp [ofList, contains_foldl_insert]

end PathSet

end IgnoreAtlas
