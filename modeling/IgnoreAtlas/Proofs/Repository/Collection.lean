import IgnoreAtlas.Proofs.Holder.Lifecycle
import IgnoreAtlas.Workspace

/-!
# Collecting repositories

Repositories can be listed in any order, more than once, and with roots in any spelling. The set
that is made of them has each root once, in the order of their components, and whom a file belongs
to does not depend on how they were listed (`longest_root_of_ofList`): it is the longest root around
the file, component by component. A root that only begins like the file, as text, is not around it.

The set finds a repository for every root that it answers with. So a file that has no tracker is in
no repository, or in one that is not in the registry (`locate?_router_eq_none_iff`).
-/

namespace IgnoreAtlas

namespace RepositorySet

variable {set : RepositorySet} {place : Place} {file root : Path} {list other : List Repository}

/-- The lists of components of the roots. -/
def rootComponents (list : List Repository) : List (List Component) := list.map (·.root.components)

theorem mem_rootComponents_iff {components : List Component} :
    components ∈ rootComponents list ↔ ∃ r ∈ list, r.root.components = components := List.mem_map

/-- The set of some repositories has their roots. -/
theorem mem_rootComponents_ofList_iff {components : List Component} :
    components ∈ rootComponents (ofList list).repositories ↔ components ∈ rootComponents list := by
  simp only [mem_rootComponents_iff]
  constructor
  · rintro ⟨r, hr, hcomponents⟩
    exact ⟨r, mem_of_mem_ofList hr, hcomponents⟩
  · rintro ⟨r, hr, hcomponents⟩
    obtain ⟨kept, hkept, hsame⟩ := exists_mem_ofList hr
    exact ⟨kept, hkept, hsame.trans hcomponents⟩

/-- A file belongs to no root when none is around it. -/
theorem deepest?_eq_none_iff :
    deepest? set.roots file = none ↔
      ∀ components ∈ rootComponents set.repositories, ¬components <+: file.components := by
  constructor
  · intro hnone components hmem haround
    obtain ⟨r, hr, rfl⟩ := mem_rootComponents_iff.mp hmem
    obtain ⟨deep, hdeep⟩ :=
      exists_deepest?_eq_some (List.mem_map_of_mem hr) (Path.startsWith_iff.mpr haround)
    rw [hnone] at hdeep
    cases hdeep
  · intro hnone
    cases hdeepest : deepest? set.roots file with
    | none => rfl
    | some root =>
      obtain ⟨hroot, haround, -⟩ := deepest?_eq_some_iff.mp hdeepest
      obtain ⟨r, hr, rfl⟩ := List.mem_map.mp hroot
      exact absurd (Path.startsWith_iff.mp haround) <|
        hnone _ (mem_rootComponents_iff.mpr ⟨r, hr, rfl⟩)

/-- It belongs to the root around it that is longer than all others around it. -/
theorem deepest?_eq_some_iff_longest :
    deepest? set.roots file = some root ↔
      root ∈ set.roots ∧ root.components <+: file.components ∧
        ∀ components ∈ rootComponents set.repositories, components <+: file.components →
          components ≠ root.components → components.length < root.components.length := by
  rw [deepest?_eq_some_iff, Path.startsWith_iff]
  refine and_congr_right fun _ => and_congr_right fun haround => ?_
  constructor
  · intro hdeep components hmem hother hne
    obtain ⟨r, hr, rfl⟩ := mem_rootComponents_iff.mp hmem
    have hbelow := Path.startsWith_iff.mp <|
      hdeep r.root (List.mem_map_of_mem hr) (Path.startsWith_iff.mpr hother)
    exact Nat.lt_of_le_of_ne hbelow.length_le fun hlength => hne (hbelow.eq_of_length hlength)
  · intro hlongest r hr hother
    obtain ⟨s, hs, rfl⟩ := List.mem_map.mp hr
    rw [Path.startsWith_iff] at hother ⊢
    by_cases hsame : s.root.components = root.components
    · exact hsame ▸ List.prefix_rfl
    · have hlonger := hlongest _ (mem_rootComponents_iff.mpr ⟨s, hs, rfl⟩) hother hsame
      exact List.prefix_of_prefix_length_le hother haround (Nat.le_of_lt hlonger)

/-- Two sets with the same roots agree on whom a file belongs to. -/
theorem deepest?_congr {others : RepositorySet}
    (h : ∀ components, components ∈ rootComponents others.repositories ↔
      components ∈ rootComponents set.repositories) :
    (deepest? others.roots file).map Path.components =
      (deepest? set.roots file).map Path.components := by
  cases hdeepest : deepest? set.roots file with
  | none =>
    rw [deepest?_eq_none_iff] at hdeepest
    have hother : deepest? others.roots file = none :=
      deepest?_eq_none_iff.mpr fun components hmem => hdeepest components ((h components).mp hmem)
    rw [hother]
  | some root =>
    obtain ⟨hroot, haround, hlongest⟩ := deepest?_eq_some_iff_longest.mp hdeepest
    obtain ⟨r, hr, rfl⟩ := List.mem_map.mp hroot
    have hmem := (h r.root.components).mpr (mem_rootComponents_iff.mpr ⟨r, hr, rfl⟩)
    obtain ⟨s, hs, hsame⟩ := mem_rootComponents_iff.mp hmem
    have hother : deepest? others.roots file = some s.root := by
      rw [deepest?_eq_some_iff_longest, hsame]
      exact ⟨List.mem_map_of_mem hs, haround, fun components hmem =>
        hlongest components ((h components).mp hmem)⟩
    rw [hother, Option.map_some, Option.map_some, hsame]

/-- The root that a file belongs to is that of a repository. -/
theorem exists_withRoot?_of_rootOf? (h : set.rootOf? place file = some root) :
    ∃ r ∈ set.repositories, set.withRoot? root = some r ∧ r.root = root := by
  obtain ⟨hroot, -, -⟩ := deepest?_eq_some_iff.mp h
  obtain ⟨r, hr, rfl⟩ := List.mem_map.mp hroot
  exact ⟨r, hr, withRoot?_eq_some hr (Path.same_iff.mpr rfl), rfl⟩

/-- A file has no tracker when it is in no repository, or in one that is not in the registry. -/
theorem locate?_router_eq_none_iff {α : Type} {registry : Registry α} :
    (set.router place).locate? registry file = none ↔
      set.rootOf? place file = none ∨
        ∃ r ∈ set.repositories, set.rootOf? place file = some r.root ∧ registry.get? r = none := by
  cases hroot : set.rootOf? place file with
  | none => simp [Router.locate?, router, hroot]
  | some root =>
    obtain ⟨r, hr, hwith, rfl⟩ := exists_withRoot?_of_rootOf? hroot
    have hlocate : (set.router place).locate? registry file = registry.get? r := by
      simp [Router.locate?, router, hroot, hwith]
    rw [hlocate]
    constructor
    · exact fun hnone => .inr ⟨r, hr, rfl, hnone⟩
    · rintro (hnone | ⟨s, hs, hsame, hnone⟩)
      · cases hnone
      · rwa [eq_of_components_eq hr hs (congrArg Path.components (Option.some.inj hsame))]

/-- The set that is made of listed repositories, and whom a file belongs to in it. Another list of
the same roots gives the same answers. -/
theorem longest_root_of_ofList {α : Type} (list : List Repository) (place : Place) (file : Path)
    (registry : Registry α) :
    let set := ofList list
    (set.repositories.Pairwise fun a b => a.root.key < b.root.key) ∧
    set.repositories ⊆ list ∧
    (∀ components,
      components ∈ rootComponents set.repositories ↔ components ∈ rootComponents list) ∧
    (set.rootOf? place file = none ↔
      ∀ components ∈ rootComponents list, ¬components <+: (place.normalize file).components) ∧
    (∀ root, set.rootOf? place file = some root ↔
      root ∈ set.roots ∧ root.components <+: (place.normalize file).components ∧
        ∀ components ∈ rootComponents list, components <+: (place.normalize file).components →
          components ≠ root.components → components.length < root.components.length) ∧
    (∀ other : List Repository,
      (∀ components, components ∈ rootComponents other ↔ components ∈ rootComponents list) →
        ((ofList other).rootOf? place file).map Path.components =
          (set.rootOf? place file).map Path.components) ∧
    (∀ root, set.rootOf? place file = some root →
      ∃ r ∈ set.repositories, set.withRoot? root = some r ∧ r.root = root) ∧
    ((set.router place).locate? registry file = none ↔
      set.rootOf? place file = none ∨
        ∃ r ∈ set.repositories, set.rootOf? place file = some r.root ∧ registry.get? r = none) := by
  intro set
  have hcomponents : ∀ components,
      components ∈ rootComponents set.repositories ↔ components ∈ rootComponents list :=
    fun _ => mem_rootComponents_ofList_iff
  refine ⟨set.sorted, fun _ => mem_of_mem_ofList, hcomponents, ?_, ?_, ?_,
    fun _ => exists_withRoot?_of_rootOf?, locate?_router_eq_none_iff⟩
  · simp only [rootOf?, deepest?_eq_none_iff, hcomponents]
  · intro root
    simp only [rootOf?, deepest?_eq_some_iff_longest, hcomponents]
  · intro other hsame
    refine deepest?_congr fun components => ?_
    rw [mem_rootComponents_ofList_iff, hsame, hcomponents]

/-- A root is not around a path that only begins with the same letters. -/
example : deepest? [.ofString "/work/app"] (.ofString "/work/application/x") = none ∧
    deepest? [.ofString "/work/app"] (.ofString "/work/./app//x") =
      some (.ofString "/work/app") := by
  decide +kernel

end RepositorySet

end IgnoreAtlas
