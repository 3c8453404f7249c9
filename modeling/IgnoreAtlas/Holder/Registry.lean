import IgnoreAtlas.Repository.Basic
import IgnoreAtlas.Trouble

/-!
# Trackers by repository

A registry gives each repository one tracker. It is built once: the repositories are gone through in
order, a repository that is there already is passed over, and for each other one a tracker is made.
The first failure ends the building, and there is no registry.

A *router* finds the tracker for a file: the root around the file, the repository with that root,
and the tracker of that repository. If one of these is missing there is no tracker.
-/

namespace IgnoreAtlas

/-- The trackers of the repositories, in the order in which they are gone through. -/
structure Registry (α : Type) where
  entries : List (Repository × α)
  /-- No repository has two trackers. -/
  distinct : (entries.map fun e => e.1.root.components).Nodup

namespace Registry

variable {α σ : Type}

/-- The registry of no repository. -/
def empty : Registry α := ⟨[], List.Pairwise.nil⟩

/-- The tracker of a repository. -/
def get? (registry : Registry α) (repository : Repository) : Option α :=
  (registry.entries.find? (·.1.same repository)).map (·.2)

/-- The repository has a tracker. -/
def contains (registry : Registry α) (repository : Repository) : Bool :=
  registry.entries.any (·.1.same repository)

/-- The number of trackers. -/
def size (registry : Registry α) : Nat := registry.entries.length

/-- The repositories. -/
def repositories (registry : Registry α) : List Repository := registry.entries.map (·.1)

/-- The trackers. -/
def trackers (registry : Registry α) : List α := registry.entries.map (·.2)

/-- A repository without a tracker is the same as none that has one. -/
theorem not_mem_of_not_contains {registry : Registry α} {repository : Repository}
    (h : ¬registry.contains repository) :
    repository.root.components ∉ registry.entries.map fun e => e.1.root.components := by
  intro hm
  obtain ⟨entry, he, heq⟩ := List.mem_map.mp hm
  exact h (List.any_eq_true.mpr ⟨entry, he, by simp [Repository.same, Path.same, heq]⟩)

/-- The registry with one more repository, which has no tracker yet. -/
def add (registry : Registry α) (repository : Repository) (tracker : α)
    (h : ¬registry.contains repository) : Registry α where
  entries := registry.entries ++ [(repository, tracker)]
  distinct := by
    rw [List.map_append, List.map_singleton, List.nodup_append]
    refine ⟨registry.distinct, by simp, fun a ha b hb hab => ?_⟩
    rw [List.mem_singleton.mp hb] at hab
    exact not_mem_of_not_contains h (hab ▸ ha)

/-- Goes on building with the repositories that are left. Making a tracker can change a state. -/
def buildFrom (make : Repository → σ → Except Trouble α × σ) (registry : Registry α) (state : σ) :
    List Repository → Except HolderTrouble (Registry α) × σ
  | [] => (.ok registry, state)
  | repository :: rest =>
    if h : registry.contains repository then buildFrom make registry state rest
    else
      match make repository state with
      | (.ok tracker, state) => buildFrom make (registry.add repository tracker h) state rest
      | (.error trouble, state) => (.error (.construction repository.root trouble), state)

/-- The registry for these repositories. -/
def build (make : Repository → σ → Except Trouble α × σ) (state : σ)
    (repositories : List Repository) : Except HolderTrouble (Registry α) × σ :=
  buildFrom make empty state repositories

end Registry

/-- Finds the repository of a file. -/
structure Router where
  /-- The root around a file. -/
  rootOf? : Path → Option Path
  /-- The repository with a root. -/
  withRoot? : Path → Option Repository

namespace Router

/-- The tracker that a file belongs to. -/
def locate? {α : Type} (router : Router) (registry : Registry α) (file : Path) : Option α := do
  let root ← router.rootOf? file
  let repository ← router.withRoot? root
  registry.get? repository

end Router

end IgnoreAtlas
