import IgnoreAtlas.Place
import IgnoreAtlas.Proofs.Path.Components

/-!
# Normal spellings

The normal spelling of a path is absolute as soon as the path can be read as an absolute one at all
(`isAbsolute_normalize`). What stays relative, in a place whose current directory is gone, is below
no absolute path.
-/

namespace IgnoreAtlas

namespace Path

/-- An absolute path is around absolute paths only. -/
theorem isAbsolute_of_startsWith {p root : Path} (hroot : root.isAbsolute)
    (h : p.startsWith root) : p.isAbsolute := by
  rw [startsWith_iff, components_of_isAbsolute hroot] at h
  have hmem : Component.root ∈ p.components := h.subset List.mem_cons_self
  have hinner : Component.root ∉ p.segments.filterMap Component.ofSegment? := by
    intro hin
    obtain ⟨segment, -, hsegment⟩ := List.mem_filterMap.mp hin
    unfold Component.ofSegment? at hsegment
    split at hsegment
    · cases hsegment
    · split at hsegment <;> cases hsegment
  by_contra hrel
  simp only [components, if_neg hrel] at hmem
  split at hmem
  · exact (List.mem_cons.mp hmem).elim Component.noConfusion hinner
  · exact hinner hmem

/-- Names with slashes between them are a relative path. -/
theorem isAbsolute_joinWith_names :
    ∀ names : List Name, (Path.mk (joinWith slash (names.map Name.bytes))).isAbsolute = false
  | [] => rfl
  | [n] => isAbsolute_name n
  | n :: m :: names => by
    have hn := isAbsolute_name n
    obtain ⟨b, bytes, hb⟩ := List.exists_cons_of_ne_nil n.isName.1
    rw [List.map_cons, List.map_cons, joinWith_cons_cons, hb]
    rw [hb] at hn
    exact hn

end Path

namespace FileSystem

variable {fs : FileSystem} {cwd : Location}

/-- A walk does not leave a directory that is gone. -/
theorem walk_of_gone (h : fs.listing? cwd = none) (lastLink : Bool) (links : Nat) (step : Step)
    (steps : List Step) : ∃ fault, fs.walk lastLink links cwd (step :: steps) = .error fault := by
  obtain ⟨fault, hfault⟩ : ∃ fault, fs.standing cwd = .error fault := by
    unfold standing
    rw [h]
    split
    · next hsome => cases hsome
    · exact ⟨_, rfl⟩
    · exact ⟨_, rfl⟩
  refine ⟨fault, ?_⟩
  cases links <;> cases step <;> simp only [walk, walkWith, hfault] <;> rfl

/-- From a directory that is gone no relative path leads anywhere. -/
theorem resolve_relative_of_gone {p : Path} (h : fs.listing? cwd = none)
    (hp : p.isAbsolute = false) : ∃ fault, fs.resolve cwd p = .error fault := by
  unfold resolve locate
  split
  · exact ⟨_, rfl⟩
  · split
    · exact ⟨_, rfl⟩
    · obtain ⟨segment, segments, hsegments⟩ :=
        List.exists_cons_of_ne_nil (splitOn_ne_nil slash p.bytes)
      rw [hp, if_neg Bool.false_ne_true, Path.steps, Path.segments, hsegments, List.map_cons]
      exact walk_of_gone h false mostLinks _ _

end FileSystem

namespace Place

variable {place : Place} {p : Path}

/-- A path is read as a relative one only where the current directory is gone. -/
theorem currentDir?_of_relative (h : (place.absolute p).isAbsolute = false) :
    p.isAbsolute = false ∧ place.currentDir? = none ∧ place.absolute p = p := by
  unfold absolute at h ⊢
  split at h
  · next habs => rw [habs] at h; cases h
  · next hrel =>
    split at h
    · rw [Path.isAbsolute_join (Path.isAbsolute_ofLocation _)] at h
      cases h
    · next hgone =>
      rw [if_neg hrel, hgone]
      exact ⟨h, rfl, rfl⟩

/-- A normal spelling is absolute when the path is read as an absolute one. -/
theorem isAbsolute_normalize : (place.normalize p).isAbsolute = (place.absolute p).isAbsolute := by
  unfold normalize
  dsimp only
  cases habs : (place.absolute p).isAbsolute with
  | true => split <;> exact Path.isAbsolute_ofLocation _
  | false =>
    obtain ⟨hp, hgone, hsame⟩ := currentDir?_of_relative habs
    have hlisting : place.files.listing? place.cwd = none := by
      rw [currentDir?, Option.map_eq_none_iff] at hgone
      exact hgone
    obtain ⟨fault, hfault⟩ := FileSystem.resolve_relative_of_gone hlisting habs
    rw [hfault]
    exact Path.isAbsolute_joinWith_names _

/-- Spelled normally a second time, a path that was relative the first time still is. -/
theorem isAbsolute_of_isAbsolute_normalize
    (h : (place.normalize (place.normalize p)).isAbsolute) : (place.normalize p).isAbsolute := by
  by_contra hrel
  rw [Bool.not_eq_true] at hrel
  rw [isAbsolute_normalize] at hrel h
  obtain ⟨-, hgone, -⟩ := currentDir?_of_relative hrel
  rw [absolute, isAbsolute_normalize, hrel, if_neg Bool.false_ne_true, hgone] at h
  rw [isAbsolute_normalize, hrel] at h
  cases h

end Place

end IgnoreAtlas
