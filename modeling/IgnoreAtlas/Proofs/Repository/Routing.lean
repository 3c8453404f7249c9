import IgnoreAtlas.Repository.Collection
import Mathlib.Data.List.Nodup

/-!
# Whom a file belongs to

A file belongs to the deepest root around it, and the search for that root goes once through all of
them (`deepest?_eq_some_iff`). Roots around one file are around one another, and in a set of
repositories no root occurs twice; so there is only one answer, whatever the order.
-/

namespace IgnoreAtlas

/-- Where no neighbours are the same nothing is dropped. -/
theorem dropRepeats_of_pairwise {α : Type} {same : α → α → Bool} :
    ∀ {list : List α}, (list.Pairwise fun a b => ¬same a b) → dropRepeats same list = list
  | [], _ => rfl
  | [_], _ => rfl
  | a :: b :: rest, h => by
    obtain ⟨ha, hrest⟩ := List.pairwise_cons.mp h
    rw [dropRepeats, dropRepeats_of_pairwise hrest]
    exact if_neg (ha b List.mem_cons_self)

/-- Where one member at most is what is looked for, the search finds that one. -/
theorem find?_eq_some_iff_of_unique {α : Type} {p : α → Bool} {list : List α} {a : α}
    (hunique : ∀ a ∈ list, ∀ b ∈ list, p a → p b → a = b) :
    list.find? p = some a ↔ a ∈ list ∧ p a := by
  constructor
  · exact fun h => ⟨List.mem_of_find?_eq_some h, List.find?_some h⟩
  · rintro ⟨ha, hp⟩
    obtain ⟨found, hfound⟩ : ∃ found, list.find? p = some found := by
      rw [← Option.isSome_iff_exists, List.find?_isSome]
      exact ⟨a, ha, hp⟩
    rw [hfound, hunique found (List.mem_of_find?_eq_some hfound) a ha (List.find?_some hfound) hp]

namespace RepositorySet

variable {set : RepositorySet} {file root : Path}

/-! ## The roots of a set -/

theorem nodup_components : (set.roots.map Path.components).Nodup := by
  rw [roots, List.map_map, List.nodup_iff_pairwise_ne, List.pairwise_map]
  refine set.sorted.imp fun {a b} hlt heq => ?_
  rw [Path.key_inj.mpr heq] at hlt
  exact List.lt_irrefl _ hlt

/-- Two repositories of a set with one root are one. -/
theorem eq_of_components_eq {a b : Repository} (ha : a ∈ set.repositories)
    (hb : b ∈ set.repositories) (h : a.root.components = b.root.components) : a = b := by
  have hnodup := set.nodup_components
  rw [roots, List.map_map] at hnodup
  exact List.inj_on_of_nodup_map hnodup ha hb h

/-- What is in the set of some repositories is one of them. -/
theorem mem_of_mem_ofList {list : List Repository} {repository : Repository}
    (h : repository ∈ (ofList list).repositories) : repository ∈ list :=
  List.mem_mergeSort.mp ((dropRepeats_sublist _ _).subset h)

/-- For each of some repositories one with its root is in their set. -/
theorem exists_mem_ofList {list : List Repository} {repository : Repository}
    (h : repository ∈ list) :
    ∃ kept ∈ (ofList list).repositories, kept.root.components = repository.root.components :=
  Repository.exists_mem_dropRepeats (List.mem_mergeSort.mpr h)

/-- Repositories in their order are a set as they are. -/
theorem ofList_of_pairwise {list : List Repository}
    (h : list.Pairwise fun a b => a.root.key < b.root.key) : ofList list = ⟨list, h⟩ := by
  have hle : list.Pairwise fun a b => a.le b := h.imp fun {a b} hlt =>
    Path.le_iff.mpr fun hgt => List.lt_irrefl a.root.key (List.lt_trans hlt hgt)
  have hapart : list.Pairwise fun a b => ¬a.same b := h.imp fun {a b} hlt hsame => by
    rw [Path.key_inj.mpr (Path.same_iff.mp hsame)] at hlt
    exact List.lt_irrefl _ hlt
  unfold ofList
  congr 1
  rw [List.mergeSort_of_pairwise hle, dropRepeats_of_pairwise hapart]

/-- A repository of the set is found by its root. -/
theorem withRoot?_eq_some {repository : Repository} (h : repository ∈ set.repositories)
    (hroot : repository.root.same root) : set.withRoot? root = some repository := by
  refine (find?_eq_some_iff_of_unique fun a ha b hb hsame hsame' => ?_).mpr ⟨h, hroot⟩
  exact eq_of_components_eq ha hb
    ((Path.same_iff.mp hsame).trans (Path.same_iff.mp hsame').symm)

/-! ## The deepest root -/

/-- Going through roots keeps one of the deepest. -/
theorem foldl_deeper :
    ∀ (roots : List Path) (best : Path), ∃ root ∈ best :: roots,
      roots.foldl deeper (some best) = some root ∧
        ∀ r ∈ best :: roots, r.components.length ≤ root.components.length
  | [], best => ⟨best, List.mem_cons_self, rfl, fun r hr => (List.mem_singleton.mp hr ▸ Nat.le_refl _)⟩
  | next :: roots, best => by
    by_cases hle : best.components.length ≤ next.components.length
    · obtain ⟨root, hmem, hfold, hdeep⟩ := foldl_deeper roots next
      refine ⟨root, List.mem_cons_of_mem _ hmem, ?_, fun r hr => ?_⟩
      · rw [List.foldl_cons, deeper, if_pos hle, hfold]
      · rcases List.mem_cons.mp hr with rfl | hr
        · exact Nat.le_trans hle (hdeep next List.mem_cons_self)
        · exact hdeep r hr
    · obtain ⟨root, hmem, hfold, hdeep⟩ := foldl_deeper roots best
      refine ⟨root, ?_, ?_, fun r hr => ?_⟩
      · exact (List.mem_cons.mp hmem).elim (fun h => h ▸ List.mem_cons_self)
          fun h => List.mem_cons_of_mem _ (List.mem_cons_of_mem _ h)
      · rw [List.foldl_cons, deeper, if_neg hle, hfold]
      · have hbest := hdeep best List.mem_cons_self
        rcases List.mem_cons.mp hr with rfl | hr
        · exact hbest
        · rcases List.mem_cons.mp hr with rfl | hr
          · omega
          · exact hdeep r (List.mem_cons_of_mem _ hr)

/-- Of two roots around a file the shorter is around the longer. -/
theorem prefix_of_startsWith {a b : Path} (ha : file.startsWith a) (hb : file.startsWith b)
    (h : a.components.length ≤ b.components.length) : b.startsWith a :=
  Path.startsWith_iff.mpr <|
    List.prefix_of_prefix_length_le (Path.startsWith_iff.mp ha) (Path.startsWith_iff.mp hb) h

/-- As soon as some root is around a file, the file belongs to one. -/
theorem exists_deepest?_eq_some (hroot : root ∈ set.roots) (h : file.startsWith root) :
    ∃ deep, deepest? set.roots file = some deep := by
  unfold deepest?
  cases hfilter : set.roots.filter file.startsWith with
  | nil => exact absurd (hfilter ▸ List.mem_filter.mpr ⟨hroot, h⟩) List.not_mem_nil
  | cons first rest =>
    obtain ⟨deep, -, hfold, -⟩ := foldl_deeper rest first
    exact ⟨deep, hfold⟩

/-- A file belongs to the root around it that all other roots around it are around. -/
theorem deepest?_eq_some_iff :
    deepest? set.roots file = some root ↔
      root ∈ set.roots ∧ file.startsWith root ∧
        ∀ r ∈ set.roots, file.startsWith r → root.startsWith r := by
  have hspec {root : Path} (h : deepest? set.roots file = some root) :
      root ∈ set.roots ∧ file.startsWith root ∧
        ∀ r ∈ set.roots, file.startsWith r → root.startsWith r := by
    unfold deepest? at h
    cases hfilter : set.roots.filter file.startsWith with
    | nil => rw [hfilter] at h; cases h
    | cons first rest =>
      obtain ⟨deep, hmem, hfold, hdeep⟩ := foldl_deeper rest first
      rw [hfilter, List.foldl_cons, show deeper none first = some first from rfl, hfold] at h
      obtain rfl := Option.some.inj h
      rw [← hfilter] at hmem hdeep
      obtain ⟨hroot, haround⟩ := List.mem_filter.mp hmem
      exact ⟨hroot, haround, fun r hr hfr =>
        prefix_of_startsWith hfr haround (hdeep r (List.mem_filter.mpr ⟨hr, hfr⟩))⟩
  refine ⟨hspec, fun ⟨hroot, haround, hdeep⟩ => ?_⟩
  obtain ⟨other, hother⟩ := exists_deepest?_eq_some hroot haround
  obtain ⟨hmem, hfile, hdeepest⟩ := hspec hother
  have heq := Path.components_eq_of_startsWith (hdeepest root hroot haround) (hdeep other hmem hfile)
  rw [hother, List.inj_on_of_nodup_map set.nodup_components hmem hroot heq]

end RepositorySet

end IgnoreAtlas
