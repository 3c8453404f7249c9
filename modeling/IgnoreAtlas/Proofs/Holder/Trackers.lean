import IgnoreAtlas.Proofs.Holder.Round
import IgnoreAtlas.Proofs.Repository.Routing
import Mathlib.Data.List.Nodup

/-!
# Each repository and its tracker

`Holder.Each p` says that every repository of the registry has its tracker, and that `p` holds of
the two. It is settled when the holder is built (`each_build`), and an operation keeps it if what
the operation does to a tracker keeps `p`: changing one tracker (`Each.update`), and a round of
scans (`Each.startRescan`), whatever the other scans do. Letting go of all trackers leaves nothing
to be said.
-/

namespace IgnoreAtlas

namespace Registry

variable {α : Type} {registry : Registry α} {repository : Repository} {tracker : α}

/-- Two entries of one repository are one. -/
theorem eq_of_components_eq {a b : Repository × α} (ha : a ∈ registry.entries)
    (hb : b ∈ registry.entries) (h : a.1.root.components = b.1.root.components) : a = b :=
  List.inj_on_of_nodup_map registry.distinct ha hb h

/-- A repository is found in the registry by its root. -/
theorem get?_eq_some_iff :
    registry.get? repository = some tracker ↔
      ∃ e ∈ registry.entries, e.1.root.components = repository.root.components ∧
        e.2 = tracker := by
  have hfind {e : Repository × α} : registry.entries.find? (·.1.same repository) = some e ↔
      e ∈ registry.entries ∧ e.1.root.components = repository.root.components := by
    rw [find?_eq_some_iff_of_unique, Repository.same, Path.same_iff]
    exact fun a ha b hb hsame hsame' => eq_of_components_eq ha hb
      ((Path.same_iff.mp hsame).trans (Path.same_iff.mp hsame').symm)
  unfold get?
  simp only [Option.map_eq_some_iff, hfind, and_assoc]

@[simp] theorem repositories_add (hnot : ¬registry.contains repository) :
    (registry.add repository tracker hnot).repositories =
      registry.repositories ++ [repository] := by
  simp [repositories, add]

@[simp] theorem trackers_add (hnot : ¬registry.contains repository) :
    (registry.add repository tracker hnot).trackers = registry.trackers ++ [tracker] := by
  simp [trackers, add]

@[simp] theorem contains_add (hnot : ¬registry.contains repository) {other : Repository} :
    (registry.add repository tracker hnot).contains other ↔
      registry.contains other ∨ repository.same other := by
  simp [contains, add]

end Registry

namespace Holder

variable {σ : Type} {p : Repository → σ → Prop} {holder : Holder σ}

/-- Every repository of the registry has its tracker, and `p` holds of the two. -/
def Each (p : Repository → σ → Prop) (holder : Holder σ) : Prop :=
  ∀ e ∈ holder.registry.entries, ∃ tracker, holder.tracker? e.2 = some tracker ∧ p e.1 tracker

theorem Each.imp {q : Repository → σ → Prop} (h : holder.Each p) (himp : ∀ r t, p r t → q r t) :
    holder.Each q := fun e he =>
  let ⟨tracker, htracker, hp⟩ := h e he
  ⟨tracker, htracker, himp e.1 tracker hp⟩

theorem Each.and {q : Repository → σ → Prop} (h : holder.Each p) (h' : holder.Each q) :
    holder.Each fun r t => p r t ∧ q r t := by
  intro e he
  obtain ⟨t, ht, hp⟩ := h e he
  obtain ⟨t', ht', hq⟩ := h' e he
  obtain rfl : t = t' := Option.some.inj (ht.symm.trans ht')
  exact ⟨t, ht, hp, hq⟩

/-! ## Building -/

/-- Building goes on to make a tracker for each repository that has none yet. -/
theorem buildFrom_ok {make : Repository → Except Trouble σ} {registry result : Registry Handle}
    {before after : List σ} {repositories : List Repository}
    (h : Registry.buildFrom (makeNext make) registry before repositories = (.ok result, after))
    (hmade : ∀ e ∈ registry.entries, ∃ tracker, before[e.2]? = some tracker ∧
      make e.1 = .ok tracker) :
    (∀ e ∈ result.entries, ∃ tracker, after[e.2]? = some tracker ∧ make e.1 = .ok tracker) ∧
      (((registry.repositories ++ repositories).map (·.root.components)).Nodup →
        result.repositories = registry.repositories ++ repositories) := by
  induction repositories generalizing registry before with
  | nil =>
    cases h
    exact ⟨hmade, fun _ => (List.append_nil _).symm⟩
  | cons r rest ih =>
    unfold Registry.buildFrom at h
    split at h
    · next hthere =>
      obtain ⟨hresult, -⟩ := ih h hmade
      refine ⟨hresult, fun hnodup => ?_⟩
      obtain ⟨e, he, hsame⟩ := List.any_eq_true.mp hthere
      rw [List.map_append, List.nodup_append] at hnodup
      exact absurd (Path.same_iff.mp hsame) <| hnodup.2.2 _
        (List.mem_map_of_mem (List.mem_map_of_mem he)) _ (List.mem_map_of_mem List.mem_cons_self)
    · next hthere =>
      unfold makeNext at h
      cases hmake : make r with
      | error trouble => simp [hmake] at h
      | ok tracker =>
        simp only [hmake] at h
        have hmade' : ∀ e ∈ (registry.add r before.length hthere).entries,
            ∃ t, (before ++ [tracker])[e.2]? = some t ∧ make e.1 = .ok t := by
          intro e he
          rcases List.mem_append.mp he with he | he
          · obtain ⟨t, ht, hmake⟩ := hmade e he
            have hlt := (List.getElem?_eq_some_iff.mp ht).1
            exact ⟨t, by rw [List.getElem?_append_left hlt, ht], hmake⟩
          · rw [List.mem_singleton.mp he]
            exact ⟨tracker, List.getElem?_concat_length, hmake⟩
        obtain ⟨hresult, hrepositories⟩ := ih h hmade'
        rw [Registry.repositories_add, List.append_assoc, List.singleton_append] at hrepositories
        exact ⟨hresult, hrepositories⟩

/-- A holder that is built has for each repository of its registry the tracker that was made for
it; distinct repositories are all in the registry, in their order. -/
theorem each_build {make : Repository → Except Trouble σ} {repositories : List Repository}
    (h : build make repositories = .ok holder) :
    holder.Each (fun r t => make r = .ok t) ∧
      ((repositories.map (·.root.components)).Nodup → holder.repositories = repositories) := by
  unfold build at h
  split at h
  · next registry trackers hbuild =>
    cases h
    exact buildFrom_ok hbuild (fun e he => absurd he List.not_mem_nil)
  · cases h

/-- Building succeeds when a tracker can be made for each repository. -/
theorem exists_buildFrom {make : Repository → Except Trouble σ} {repositories : List Repository}
    (h : ∀ r ∈ repositories, ∃ tracker, make r = .ok tracker) (registry : Registry Handle)
    (before : List σ) :
    ∃ result after, Registry.buildFrom (makeNext make) registry before repositories =
      (.ok result, after) := by
  induction repositories generalizing registry before with
  | nil => exact ⟨registry, before, rfl⟩
  | cons r rest ih =>
    have hrest := ih fun r' hr' => h r' (List.mem_cons_of_mem r hr')
    obtain ⟨tracker, htracker⟩ := h r List.mem_cons_self
    unfold Registry.buildFrom
    split
    · exact hrest registry before
    · next hthere =>
      simp only [makeNext, htracker]
      exact hrest _ _

/-- So there is a holder for repositories that can each have a tracker. -/
theorem exists_build {make : Repository → Except Trouble σ} {repositories : List Repository}
    (h : ∀ r ∈ repositories, ∃ tracker, make r = .ok tracker) :
    ∃ holder, build make repositories = .ok holder := by
  obtain ⟨registry, trackers, hbuild⟩ := exists_buildFrom h .empty []
  refine ⟨⟨registry, trackers, {}⟩, ?_⟩
  rw [build, show Registry.build (makeNext make) [] repositories = (.ok registry, trackers) from
    hbuild]

/-! ## Changing one tracker -/

@[simp] theorem registry_update (holder : Holder σ) (handle : Handle) (change : σ → σ) :
    (holder.update handle change).registry = holder.registry := rfl

theorem tracker?_update (holder : Holder σ) (handle other : Handle) (change : σ → σ) :
    (holder.update handle change).tracker? other =
      if handle = other then (holder.tracker? other).map change else holder.tracker? other := by
  unfold tracker? update
  rw [List.getElem?_modify]
  split <;> simp

/-- A change is what it does to the tracker that is there. -/
theorem update_congr {handle : Handle} {change other : σ → σ}
    (h : ∀ t, holder.tracker? handle = some t → change t = other t) :
    holder.update handle change = holder.update handle other := by
  have htrackers : holder.trackers.modify handle change = holder.trackers.modify handle other := by
    refine List.ext_getElem? fun i => ?_
    rw [List.getElem?_modify, List.getElem?_modify]
    by_cases hi : handle = i
    · subst hi
      cases hget : holder.trackers[handle]? with
      | none => rfl
      | some t => simp [h t hget]
    · simp [hi]
  rw [update, update, htrackers]

theorem update_self {handle : Handle} {change : σ → σ}
    (h : ∀ t, holder.tracker? handle = some t → change t = t) :
    holder.update handle change = holder := by
  have hid : holder.update handle change = holder.update handle id := update_congr h
  rw [hid, update, List.modify_id]

/-- A tracker that is put back as it was changes nothing. -/
theorem update_same {handle : Handle} {tracker : σ} (h : holder.tracker? handle = some tracker) :
    holder.update handle (fun _ => tracker) = holder :=
  update_self fun _ ht => Option.some.inj (h.symm.trans ht)

/-- A change to one tracker keeps what it keeps of the repositories that have this tracker. -/
theorem Each.update (h : holder.Each p) {handle : Handle} {change : σ → σ}
    (hchange : ∀ e ∈ holder.registry.entries, e.2 = handle → ∀ t, holder.tracker? handle = some t →
      p e.1 t → p e.1 (change t)) : (holder.update handle change).Each p := by
  intro e he
  obtain ⟨t, ht, hp⟩ := h e he
  rw [tracker?_update]
  by_cases hhandle : handle = e.2
  · rw [if_pos hhandle, ht]
    exact ⟨change t, rfl, hchange e he hhandle.symm t (hhandle ▸ ht) hp⟩
  · rw [if_neg hhandle]
    exact ⟨t, ht, hp⟩

/-- Letting go of all trackers leaves none in the registry. -/
theorem registry_cleanAll (tracking : Tracking σ) (holder : Holder σ) :
    (holder.cleanAll tracking).registry = .empty := by
  unfold cleanAll
  dsimp only
  generalize holder.registry.trackers = handles
  have hkeep : ∀ (handles : List Handle) (holder : Holder σ),
      (handles.foldl (fun holder handle => holder.update handle tracking.dispose) holder).registry =
        holder.registry := by
    intro handles
    induction handles with
    | nil => exact fun _ => rfl
    | cons handle handles ih => exact fun holder => ih _
  exact hkeep handles _

/-- Whatever was held of the trackers is held when none is left. -/
theorem each_cleanAll (tracking : Tracking σ) (holder : Holder σ) :
    (holder.cleanAll tracking).Each p := by
  intro e he
  rw [registry_cleanAll] at he
  exact absurd he List.not_mem_nil

/-! ## A round of scans -/

theorem registry_rescanAlone (scan : σ → Outcome × σ) (handle : Handle) (holder : Holder σ) :
    (Tracking.rescanAlone scan handle holder).2.registry = holder.registry := by
  unfold Tracking.rescanAlone
  split <;> rfl

/-- A scan that uses its own tracker alone changes that one. -/
theorem tracker?_rescanAlone (scan : σ → Outcome × σ) (handle other : Handle) (holder : Holder σ) :
    (Tracking.rescanAlone scan handle holder).2.tracker? other =
      if handle = other then (holder.tracker? other).map fun t => (scan t).2
      else holder.tracker? other := by
  unfold Tracking.rescanAlone
  split
  · next t ht =>
    rw [tracker?_update]
    split
    · next heq => rw [← heq, ht, Option.map_some, Option.map_some]
    · rfl
  · next hnone =>
    split
    · next heq => rw [← heq, hnone, Option.map_none]
    · rfl

/-- It keeps what it keeps of every tracker. -/
theorem Each.rescanAlone (h : holder.Each p) {scan : σ → Outcome × σ}
    (hscan : ∀ e ∈ holder.registry.entries, ∀ t, p e.1 t → p e.1 (scan t).2) (handle : Handle) :
    (Tracking.rescanAlone scan handle holder).2.Each p := by
  intro e he
  rw [registry_rescanAlone] at he
  obtain ⟨t, ht, hp⟩ := h e he
  rw [tracker?_rescanAlone, ht]
  split
  · exact ⟨(scan t).2, rfl, hscan e he t hp⟩
  · exact ⟨t, rfl, hp⟩

/-- The tracker is as a scan has left it. -/
def Rescanned (scan : σ → Outcome × σ) (p : Repository → σ → Prop) (repository : Repository)
    (tracker : σ) : Prop :=
  ∃ before, p repository before ∧ tracker = (scan before).2

/-- Scans one after another keep what each of them keeps. Every tracker among them is in the end as
a scan has left it, and so is every other one that was so before. -/
theorem Visits.each {tracking : Tracking σ} {scan : σ → Outcome × σ} {after : Holder σ}
    {visits : List Visit} (hvisits : Visits tracking holder visits after)
    (halone : tracking.rescan = Tracking.rescanAlone scan) (h : holder.Each p)
    (hscan : ∀ e ∈ holder.registry.entries, ∀ t, p e.1 t → p e.1 (scan t).2) :
    after.registry = holder.registry ∧ after.Each p ∧
      ∀ e ∈ holder.registry.entries,
        (e.2 ∈ visits.map Visit.tracker ∨
          ∃ t, holder.tracker? e.2 = some t ∧ Rescanned scan p e.1 t) →
        ∃ t, after.tracker? e.2 = some t ∧ Rescanned scan p e.1 t := by
  induction hvisits with
  | none holder => exact ⟨rfl, h, fun e _ he => he.resolve_left List.not_mem_nil⟩
  | @scan holder next after repository tracker outcome visits hrescan _ ih =>
    have hnext : next = (Tracking.rescanAlone scan tracker holder).2 := by
      rw [← halone, hrescan]
    have hregistry : next.registry = holder.registry := by rw [hnext, registry_rescanAlone]
    obtain ⟨hsame, hkept, hdone⟩ := ih (hnext ▸ h.rescanAlone hscan tracker)
      (by rw [hregistry]; exact hscan)
    rw [hregistry] at hsame hdone
    refine ⟨hsame, hkept, fun e he hmem => hdone e he ?_⟩
    rw [hnext, tracker?_rescanAlone]
    by_cases heq : tracker = e.2
    · obtain ⟨t, ht, hp⟩ := h e he
      rw [if_pos heq, ht]
      exact .inr ⟨(scan t).2, rfl, t, hp, rfl⟩
    · rw [if_neg heq]
      exact hmem.imp_left fun hm => (List.mem_cons.mp hm).resolve_left fun h => heq h.symm

/-- A round of scans keeps what a scan keeps of every tracker, and leaves each as a scan does. -/
theorem Each.startRescan (h : holder.Each p) {tracking : Tracking σ} {scan : σ → Outcome × σ}
    (halone : tracking.rescan = Tracking.rescanAlone scan) (react : Update.Reactions)
    (hscan : ∀ e ∈ holder.registry.entries, ∀ t, p e.1 t → p e.1 (scan t).2) :
    (holder.startRescan tracking react).2.registry = holder.registry ∧
      (holder.startRescan tracking react).2.Each p ∧
      (holder.startRescan tracking react).2.Each (Rescanned scan p) := by
  obtain ⟨visits, after, hvisits, hentries, hround⟩ := startRescan_eq tracking react holder
  obtain ⟨hregistry, hkept, hdone⟩ := hvisits.each halone h hscan
  rw [hround]
  refine ⟨hregistry, hkept, fun e he => ?_⟩
  have he' : e ∈ holder.registry.entries := hregistry ▸ he
  rw [← hentries] at he'
  obtain ⟨visit, hvisit, rfl⟩ := List.mem_map.mp he'
  exact hdone _ (hregistry ▸ he) (.inl (List.mem_map_of_mem hvisit))

end Holder

end IgnoreAtlas
