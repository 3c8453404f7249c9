import IgnoreAtlas.Proofs.FileSystem.Walking
import IgnoreAtlas.Proofs.Holder.Run
import IgnoreAtlas.Proofs.Path.Settled
import IgnoreAtlas.Proofs.Tracker.Record
import IgnoreAtlas.Workspace

/-!
# What a round of scans leaves

A scan succeeds exactly where the root leads to a directory (`record_of_isDir`, `record_of_not_isDir`),
and then its result has nothing to do with what was recorded before. A round of such scans changes
every tracker of the registry as its own scan does and leaves the others (`startRescan_alone`), in
whatever order the registry is gone through. So some repositories may be missing: they keep their
records and are counted, and the others get theirs (`renewed_of_startRescan`).
-/

namespace IgnoreAtlas

/-! ## Roots that can be scanned -/

namespace Scan

variable {place : Place} {settings : TrackerSettings} {root : Path}

/-- There is a job for a root that leads to a directory, and for no other. -/
theorem exists_job_iff : (∃ job, Job.of? place settings root = some job) ↔ place.isDir root := by
  rw [Place.isDir_iff]
  constructor
  · rintro ⟨job, hjob⟩
    obtain ⟨rfl, -, rfl⟩ := Job.of?_eq_some hjob
    exact ⟨job.location, job.inside, job.resolved, job.listed⟩
  · rintro ⟨location, inside, hresolve, hlisting⟩
    unfold Job.of?
    split
    · next location' hresolve' =>
      obtain rfl : location = location' := Except.ok.inj (hresolve.symm.trans hresolve')
      split
      · exact ⟨_, rfl⟩
      · next hnone =>
        rw [hlisting] at hnone
        cases hnone
    · next fault hfault =>
      rw [hresolve] at hfault
      cases hfault

theorem record_of_isDir (settings : TrackerSettings) (h : place.isDir root) :
    ∃ recorded, record place settings root = .ok recorded := by
  obtain ⟨job, hjob⟩ := exists_job_iff.mpr h
  exact ⟨job.recorded, record_eq_ok hjob⟩

/-- A scan of anything else fails, always for the same reason. -/
theorem record_of_not_isDir (h : ¬place.isDir root) :
    record place settings root = .error (.rootUnavailable root) := by
  have hnone : Job.of? place settings root = none := by
    rw [Option.eq_none_iff_forall_ne_some]
    exact fun job hjob => h (exists_job_iff.mp ⟨job, hjob⟩)
  rw [record, hnone]

end Scan

namespace Tracker

variable {place : Place} {tracker : Tracker}

/-- The scan that the holder asks for leaves what a scan leaves. -/
theorem snd_scan (place : Place) (tracker : Tracker) :
    (tracker.scan place).2 = (tracker.rescan place).2 := by
  unfold scan
  split <;> simp_all

/-- A scan of a directory is done, and only the record is new. -/
theorem scan_of_isDir (hbusy : tracker.busy = false) (h : place.isDir tracker.root) :
    ∃ recorded, Scan.record place tracker.settings tracker.root = .ok recorded ∧
      tracker.scan place = (.done, { tracker with recorded }) := by
  obtain ⟨recorded, hrecord⟩ := Scan.record_of_isDir tracker.settings h
  refine ⟨recorded, hrecord, ?_⟩
  rw [scan, rescan, hrecord, ← hbusy]

/-- A scan of anything else fails and leaves the tracker as it was. -/
theorem scan_of_not_isDir (hbusy : tracker.busy = false) (h : ¬place.isDir tracker.root) :
    tracker.scan place = (.failed (.rootUnavailable tracker.root), tracker) := by
  rw [scan, rescan, Scan.record_of_not_isDir h, ← hbusy]

/-- A second scan changes nothing more. -/
theorem snd_scan_scan (place : Place) (tracker : Tracker) :
    ((tracker.scan place).2.scan place).2 = (tracker.scan place).2 := by
  simp only [snd_scan]
  unfold rescan
  cases hrecord : Scan.record place tracker.settings tracker.root with
  | error trouble => simp only [hrecord]
  | ok recorded => simp only [hrecord]

end Tracker

/-! ## A round of trackers that keep to themselves -/

namespace Holder

section Alone

variable {σ : Type} {tracking : Tracking σ} {scan : σ → Outcome × σ} {holder after : Holder σ}

/-- Scans of different trackers, one after another: each ends as its own tracker says and changes that
one alone. -/
theorem Visits.alone {visits : List Visit} (h : Visits tracking holder visits after)
    (halone : tracking.rescan = Tracking.rescanAlone scan)
    (hnodup : (visits.map Visit.tracker).Nodup) :
    after.registry = holder.registry ∧
      (∀ handle, after.tracker? handle =
        if handle ∈ visits.map Visit.tracker then (holder.tracker? handle).map fun t => (scan t).2
        else holder.tracker? handle) ∧
      ∀ visit ∈ visits, ∀ t, holder.tracker? visit.tracker = some t →
        visit.outcome = (scan t).1 := by
  induction h with
  | none holder => exact ⟨rfl, fun _ => rfl, fun _ hv => absurd hv List.not_mem_nil⟩
  | @scan holder next after repository tracker outcome visits hscan hvisits ih =>
    rw [halone] at hscan
    obtain ⟨hfirst, hrest⟩ := List.nodup_cons.mp hnodup
    obtain ⟨hregistry, htrackers, houtcomes⟩ := ih hrest
    -- The first scan changes its own tracker, which none of the later ones changes again.
    have hnext : next = (Tracking.rescanAlone scan tracker holder).2 := by rw [hscan]
    have hone (handle : Handle) : next.tracker? handle =
        if tracker = handle then (holder.tracker? handle).map fun t => (scan t).2
        else holder.tracker? handle := by
      rw [hnext, tracker?_rescanAlone]
    refine ⟨?_, fun handle => ?_, fun visit hvisit t ht => ?_⟩
    · rw [hregistry, hnext, registry_rescanAlone]
    · rw [htrackers, hone]
      by_cases heq : tracker = handle
      · subst heq
        rw [if_neg hfirst, if_pos rfl, List.map_cons, if_pos List.mem_cons_self]
      · have hmem : handle ∈ (Visit.mk repository tracker outcome :: visits).map Visit.tracker ↔
            handle ∈ visits.map Visit.tracker := by
          simp [Ne.symm heq]
        simp only [if_neg heq, hmem]
    · rcases List.mem_cons.mp hvisit with rfl | hvisit
      · dsimp only at ht
        rw [Tracking.rescanAlone, ht] at hscan
        exact (congrArg Prod.fst hscan).symm
      · have hne : tracker ≠ visit.tracker :=
          fun heq => hfirst (List.mem_map.mpr ⟨visit, hvisit, heq.symm⟩)
        refine houtcomes visit hvisit t ?_
        rw [hone, if_neg hne, ht]

/-- A round changes every tracker of the registry as its own scan does, and leaves the others. -/
theorem startRescan_alone (halone : tracking.rescan = Tracking.rescanAlone scan)
    (holder : Holder σ) (hnodup : holder.registry.trackers.Nodup) (react : Update.Reactions) :
    ∃ visits, visits.map Visit.entry = holder.registry.entries ∧
      (∀ visit ∈ visits, ∀ t, holder.tracker? visit.tracker = some t →
        visit.outcome = (scan t).1) ∧
      (holder.startRescan tracking react).1.ending = endingAfter {} visits ∧
      (holder.startRescan tracking react).2.registry = holder.registry ∧
      ∀ handle, (holder.startRescan tracking react).2.tracker? handle =
        if handle ∈ holder.registry.trackers then (holder.tracker? handle).map fun t => (scan t).2
        else holder.tracker? handle := by
  obtain ⟨visits, last, hvisits, hentries, hround⟩ := startRescan_eq tracking react holder
  have hhandles : visits.map Visit.tracker = holder.registry.trackers := by
    rw [Registry.trackers, ← hentries, List.map_map]
    rfl
  obtain ⟨hregistry, htrackers, houtcomes⟩ := hvisits.alone halone (hhandles ▸ hnodup)
  rw [hhandles] at htrackers
  rw [hround]
  exact ⟨visits, hentries, houtcomes, rfl, hregistry, htrackers⟩

end Alone

end Holder

/-! ## Missing repositories -/

/-- The tracker is for the repository, and no scan of it is going on. -/
def Tracker.Watches (repository : Repository) (tracker : Tracker) : Prop :=
  tracker.root = repository.root ∧ tracker.busy = false

namespace Tracker

variable {place : Place} {repository : Repository} {tracker : Tracker}

theorem watches_of_open? {settings : TrackerSettings}
    (h : Tracker.open? place settings repository.root = .ok tracker) :
    tracker.Watches repository := by
  rw [open?_eq_ok h]
  exact ⟨rfl, rfl⟩

theorem watches_scan (h : tracker.Watches repository) :
    (tracker.scan place).2.Watches repository := by
  rw [snd_scan, rescan]
  split <;> exact ⟨h.1, rfl⟩

theorem watches_addFile {file : Path} (h : tracker.Watches repository) :
    (tracker.addFile file).Watches repository := by
  unfold addFile
  dsimp only
  split <;> exact h

end Tracker

namespace Holder

variable {place : Place} {holder : Holder Tracker}

/-- The repositories whose roots are no directories. -/
def missing (place : Place) (holder : Holder Tracker) : List Repository :=
  holder.repositories.filter fun r => !place.isDir r.root

/-- Trackers of different repositories are different. -/
theorem nodup_trackers (h : holder.Each Tracker.Watches) : holder.registry.trackers.Nodup := by
  have hapart := List.pairwise_map.mp (List.nodup_iff_pairwise_ne.mp holder.registry.distinct)
  refine List.nodup_iff_pairwise_ne.mpr (List.pairwise_map.mpr ?_)
  -- A tracker watches one root, and the roots of the entries differ.
  refine hapart.imp_of_mem fun {a b} ha hb hne heq => hne ?_
  obtain ⟨t, ht, hroot, -⟩ := h a ha
  obtain ⟨t', ht', hroot', -⟩ := h b hb
  rw [heq, ht', Option.some_inj] at ht
  rw [← hroot, ← hroot', ht]

theorem isBusy_of_each (h : holder.Each Tracker.Watches) (place : Place) :
    holder.isBusy (Tracker.tracking place) = false := by
  rw [isBusy, List.any_eq_false]
  intro t ht
  obtain ⟨handle, hhandle, hsome⟩ := List.mem_filterMap.mp ht
  obtain ⟨e, he, rfl⟩ := List.mem_map.mp hhandle
  obtain ⟨t', ht', -, hbusy⟩ := h e he
  rw [hsome, Option.some_inj] at ht'
  subst ht'
  exact Bool.eq_false_iff.mp hbusy

/-- The scans of a round end as the roots of their repositories say. -/
def EndAsRoots (place : Place) (visits : List Visit) : Prop :=
  ∀ visit ∈ visits, visit.outcome =
    if place.isDir visit.repository.root then .done
    else .failed (.rootUnavailable visit.repository.root)

/-- Then a repository is counted as a failure when it is missing. -/
theorem EndAsRoots.countP_eq {visits : List Visit} (h : EndAsRoots place visits) :
    visits.countP (·.outcome.trouble?.isSome) =
      ((visits.map Visit.repository).filter fun r => !place.isDir r.root).length := by
  rw [← List.countP_eq_length_filter, List.countP_map]
  refine List.countP_congr fun visit hvisit => ?_
  rw [h visit hvisit]
  cases hdir : place.isDir visit.repository.root <;> simp [hdir]

/-- Such a round is done when no repository is missing. Otherwise it fails, names a missing repository,
says that its root is not available, and counts the missing ones. -/
theorem EndAsRoots.ending {visits : List Visit} (h : EndAsRoots place visits) :
    let missing := (visits.map Visit.repository).filter fun r => !place.isDir r.root
    (endingAfter {} visits = .done ↔ missing = []) ∧
      (missing ≠ [] → ∃ r ∈ missing, endingAfter {} visits =
        .failed (.rescan r.root missing.length (.rootUnavailable r.root))) := by
  intro missing
  have hmissing {visit : Visit} (hvisit : visit ∈ visits)
      (hdir : place.isDir visit.repository.root = false) : visit.repository ∈ missing :=
    List.mem_filter.mpr ⟨List.mem_map_of_mem hvisit, by rw [hdir]; rfl⟩
  have hpayload : ∀ visit ∈ visits, visit.outcome.payload? = none := by
    intro visit hvisit
    rw [h visit hvisit]
    split <;> rfl
  constructor
  · rw [endingAfter_eq_done_iff, List.filter_eq_nil_iff, List.forall_mem_map]
    refine forall₂_congr fun visit hvisit => ?_
    rw [h visit hvisit]
    cases place.isDir visit.repository.root <;> simp
  · intro hne
    obtain ⟨r, hr⟩ := List.exists_mem_of_ne_nil _ hne
    obtain ⟨hr, hdir⟩ := List.mem_filter.mp hr
    obtain ⟨failed, hfailed, rfl⟩ := List.mem_map.mp hr
    rw [Bool.not_eq_true'] at hdir
    -- A missing repository fails, so there is a first failure, and only a missing one can be it.
    cases hfirst : visits.findSome? Visit.failure? with
    | none =>
      have hnone := List.findSome?_eq_none_iff.mp hfirst failed hfailed
      rw [Visit.failure?, h failed hfailed, hdir] at hnone
      cases hnone
    | some first =>
      obtain ⟨visit, hvisit, hfailure⟩ := List.exists_of_findSome?_eq_some hfirst
      rw [Visit.failure?, h visit hvisit] at hfailure
      cases hdir' : place.isDir visit.repository.root with
      | true => rw [hdir'] at hfailure; cases hfailure
      | false =>
        rw [hdir'] at hfailure
        cases hfailure
        refine ⟨visit.repository, hmissing hvisit hdir', ?_⟩
        exact endingAfter_eq_failed_iff.mpr
          ⟨hpayload, _, _, hfirst, by rw [h.countP_eq]⟩

/-! ## A round of scans -/

/-- A round of scans of watched repositories, whatever the order of the registry: every repository
whose root is a directory gets the record of a scan, every other one keeps its own, and the round ends
as the missing ones say. -/
theorem renewed_of_each (h : holder.Each Tracker.Watches) (place : Place)
    (react : Update.Reactions) :
    let round := holder.startRescan (Tracker.tracking place) react
    round.2.registry = holder.registry ∧
      round.2.Each Tracker.Watches ∧
      (∀ e ∈ holder.registry.entries, ∃ t, holder.tracker? e.2 = some t ∧
        (place.isDir e.1.root →
          ∃ recorded, Scan.record place t.settings e.1.root = .ok recorded ∧
            round.2.tracker? e.2 = some { t with recorded }) ∧
        (¬place.isDir e.1.root → round.2.tracker? e.2 = some t)) ∧
      (round.1.ending = .done ↔ holder.missing place = []) ∧
      (holder.missing place ≠ [] → ∃ r ∈ holder.missing place, round.1.ending =
        .failed (.rescan r.root (holder.missing place).length (.rootUnavailable r.root))) := by
  have halone : (Tracker.tracking place).rescan = Tracking.rescanAlone (Tracker.scan place) := rfl
  obtain ⟨visits, hentries, houtcomes, hending, hregistry, htrackers⟩ :=
    startRescan_alone halone holder (nodup_trackers h) react
  have hroots : EndAsRoots place visits := by
    intro visit hvisit
    have hentry : visit.entry ∈ holder.registry.entries := hentries ▸ List.mem_map_of_mem hvisit
    obtain ⟨t, ht, hroot, hbusy⟩ := h _ hentry
    have hsame : t.root = visit.repository.root := hroot
    rw [houtcomes visit hvisit t ht, ← hsame]
    by_cases hdir : place.isDir t.root
    · obtain ⟨recorded, -, hscan⟩ := Tracker.scan_of_isDir hbusy hdir
      rw [hscan, if_pos hdir]
    · rw [Tracker.scan_of_not_isDir hbusy hdir, if_neg hdir]
  have hmissing : (visits.map Visit.repository).filter (fun r => !place.isDir r.root) =
      holder.missing place := by
    rw [missing, repositories, Registry.repositories, ← hentries, List.map_map]
    rfl
  have hwatches := h.startRescan halone react fun e _ t ht => Tracker.watches_scan ht
  refine ⟨hregistry, hwatches.2.1, fun e he => ?_, ?_⟩
  · obtain ⟨t, ht, hroot, hbusy⟩ := h e he
    have hmem : e.2 ∈ holder.registry.trackers := List.mem_map_of_mem he
    have hafter := htrackers e.2
    rw [if_pos hmem, ht, Option.map_some] at hafter
    refine ⟨t, ht, fun hdir => ?_, fun hdir => ?_⟩
    · rw [← hroot] at hdir ⊢
      obtain ⟨recorded, hrecord, hscan⟩ := Tracker.scan_of_isDir hbusy hdir
      exact ⟨recorded, hrecord, by rw [hafter, hscan]⟩
    · rw [← hroot] at hdir
      rw [hafter, Tracker.scan_of_not_isDir hbusy hdir]
  · rw [hending, ← hmissing]
    exact hroots.ending

/-- The order of the registry makes no difference to the trackers. -/
theorem trackers_startRescan_of_perm (h : holder.Each Tracker.Watches)
    {registry : Registry Handle} (hperm : registry.entries.Perm holder.registry.entries)
    (place : Place) (react : Update.Reactions) :
    (({ holder with registry } : Holder Tracker).startRescan (Tracker.tracking place) react).2.trackers =
      (holder.startRescan (Tracker.tracking place) react).2.trackers := by
  have halone : (Tracker.tracking place).rescan = Tracking.rescanAlone (Tracker.scan place) := rfl
  have hhandles : registry.trackers.Perm holder.registry.trackers := hperm.map _
  have hnodup := nodup_trackers h
  obtain ⟨-, -, -, -, -, htrackers⟩ := startRescan_alone halone holder hnodup react
  obtain ⟨-, -, -, -, -, htrackers'⟩ :=
    startRescan_alone halone ({ holder with registry } : Holder Tracker)
      (hhandles.nodup_iff.mpr hnodup) react
  refine List.ext_getElem? fun handle => ?_
  have hone := htrackers' handle
  simp only [hhandles.mem_iff] at hone
  exact hone.trans (htrackers handle).symm

/-- A second round changes no tracker. -/
theorem trackers_startRescan_startRescan (h : holder.Each Tracker.Watches) (place : Place)
    (react again : Update.Reactions) :
    let round := holder.startRescan (Tracker.tracking place) react
    (round.2.startRescan (Tracker.tracking place) again).2.trackers = round.2.trackers := by
  intro round
  have halone : (Tracker.tracking place).rescan = Tracking.rescanAlone (Tracker.scan place) := rfl
  have hnodup := nodup_trackers h
  obtain ⟨-, -, -, -, hregistry, htrackers⟩ := startRescan_alone halone holder hnodup react
  obtain ⟨-, -, -, -, -, htrackers'⟩ :=
    startRescan_alone halone round.2 (hregistry ▸ hnodup) again
  refine List.ext_getElem? fun handle => ?_
  have hone := htrackers handle
  have htwo := htrackers' handle
  rw [hregistry] at htwo
  refine htwo.trans ?_
  change _ = round.2.tracker? handle
  -- Either round scans the trackers of the registry, so each is scanned twice or not at all.
  by_cases hmem : handle ∈ holder.registry.trackers
  · rw [if_pos hmem] at hone ⊢
    rw [hone, Option.map_map]
    exact congrArg (Option.map · (holder.tracker? handle))
      (funext fun t => Tracker.snd_scan_scan place t)
  · rw [if_neg hmem]

theorem each_watches_after (h : holder.Each Tracker.Watches) (run : List (Place × Request)) :
    (holder.after (run.map fun step => (Tracker.tracking step.1, step.2))).Each Tracker.Watches := by
  induction run generalizing holder with
  | nil => exact h
  | cons step run ih =>
    refine ih (h.perform rfl (fun _ _ => Tracker.watches_scan) (fun _ _ _ ht => ?_)
      (fun _ _ _ ht => ht) step.2)
    exact Tracker.watches_addFile ht

/-- **A round of scans.** The holder has trackers that were opened for their repositories, and any run
behind it. In whatever order its registry is gone through, a round of scans gives every repository whose
root is a directory the record of a scan, whatever was recorded before, and every other one keeps its
record. The round is done when no repository is missing. Otherwise it fails, names a missing repository,
says that its root is not available, and counts the missing ones. No tracker is busy afterwards, a
second round changes no tracker, and the order makes no difference to any of them. -/
theorem renewed_of_startRescan {make : Repository → Except Trouble Tracker}
    {repositories : List Repository} {built : Holder Tracker}
    (hbuild : build make repositories = .ok built)
    (hopened : ∀ r t, make r = .ok t →
      ∃ place settings, Tracker.open? place settings r.root = .ok t)
    (run : List (Place × Request)) (registry : Registry Handle) :
    let holder := built.after (run.map fun step => (Tracker.tracking step.1, step.2))
    registry.entries.Perm holder.registry.entries →
      ∀ (place : Place) (react : Update.Reactions),
        let round := ({ holder with registry } : Holder Tracker).startRescan
          (Tracker.tracking place) react
        let missing := holder.missing place
        (∀ e ∈ holder.registry.entries, ∃ t, holder.tracker? e.2 = some t ∧
          (place.isDir e.1.root →
            ∃ recorded, Scan.record place t.settings e.1.root = .ok recorded ∧
              round.2.tracker? e.2 = some { t with recorded }) ∧
          (¬place.isDir e.1.root → round.2.tracker? e.2 = some t)) ∧
        (round.1.ending = .done ↔ missing = []) ∧
        (missing ≠ [] → ∃ r ∈ missing, round.1.ending =
          .failed (.rescan r.root missing.length (.rootUnavailable r.root))) ∧
        round.2.isBusy (Tracker.tracking place) = false ∧
        (∀ again, (round.2.startRescan (Tracker.tracking place) again).2.trackers =
          round.2.trackers) ∧
        round.2.trackers = (holder.startRescan (Tracker.tracking place) react).2.trackers := by
  intro holder hperm place react round missing
  have hheld : holder.Each Tracker.Watches :=
    each_watches_after ((each_build hbuild).1.imp fun r t hmake =>
      let ⟨_, _, hopen⟩ := hopened r t hmake
      Tracker.watches_of_open? hopen) run
  -- In another order the registry has the same entries, and the same repositories are missing.
  have hordered : ({ holder with registry } : Holder Tracker).Each Tracker.Watches :=
    fun e he => hheld e (hperm.mem_iff.mp he)
  have hmissing : (({ holder with registry } : Holder Tracker).missing place).Perm missing :=
    (hperm.map _).filter _
  obtain ⟨hregistry, hafter, hrecords, hdone, hfailed⟩ := renewed_of_each hordered place react
  refine ⟨fun e he => hrecords e (hperm.mem_iff.mpr he), ?_, fun hne => ?_,
    isBusy_of_each hafter place, trackers_startRescan_startRescan hordered place react,
    trackers_startRescan_of_perm hheld hperm place react⟩
  · rw [← List.length_eq_zero_iff, ← hmissing.length_eq, List.length_eq_zero_iff]
    exact hdone
  · have hsome := List.length_pos_iff.mpr hne
    rw [← hmissing.length_eq, List.length_pos_iff] at hsome
    obtain ⟨r, hr, hending⟩ := hfailed hsome
    rw [hmissing.length_eq] at hending
    exact ⟨r, hmissing.mem_iff.mp hr, hending⟩

/-- A tree with an empty repository in each of these directories. -/
def plantedTree (roots : List String) : FileSystem :=
  roots.foldl (fun fs root =>
    let fs := ["/.git/objects", "/.git/refs"].foldl (fun fs dir =>
      (fs.createDirs [] (.ofString (root ++ dir))).toOption.getD fs) fs
    (fs.write [] (.ofString (root ++ "/.git/HEAD")) (.literal [])).toOption.getD fs) .empty

def plantedPlace (roots : List String) : Place where
  files := plantedTree roots
  cwd := []
  home := .ofString "/"

def stayingRepository : Repository := .ofRoot (.ofString "/one")

def goingRepository : Repository := .ofRoot (.ofString "/two")

/-- When one of two repositories has gone after a first round of scans, a second one, the other way
round, counts one failure and names it. -/
theorem renewed_of_startRescan_going :
    ∃ (built : Holder Tracker) (registry : Registry Handle),
      build (fun r : Repository => Tracker.open? (plantedPlace ["/one", "/two"]) {} r.root)
        [stayingRepository, goingRepository] = .ok built ∧
      (∀ (r : Repository) t, Tracker.open? (plantedPlace ["/one", "/two"]) {} r.root = .ok t →
        ∃ place settings, Tracker.open? place settings r.root = .ok t) ∧
      let holder := built.after [(Tracker.tracking (plantedPlace ["/one", "/two"]), .rescan fun _ _ => {})]
      registry.entries = holder.registry.entries.reverse ∧
        registry.entries.Perm holder.registry.entries ∧
        (({ holder with registry } : Holder Tracker).startRescan
          (Tracker.tracking (plantedPlace ["/one"])) fun _ _ => {}).1.ending =
            .failed (.rescan goingRepository.root 1 (.rootUnavailable goingRepository.root)) := by
  have hopens : ∀ r ∈ [stayingRepository, goingRepository], ∃ tracker,
      Tracker.open? (plantedPlace ["/one", "/two"]) {} r.root = .ok tracker := by
    have hok : ∀ r ∈ [stayingRepository, goingRepository],
        (Tracker.open? (plantedPlace ["/one", "/two"]) {} r.root).isOk := by
      decide +kernel
    intro r hr
    cases hopen : Tracker.open? (plantedPlace ["/one", "/two"]) {} r.root with
    | ok tracker => exact ⟨tracker, rfl⟩
    | error trouble => simpa [hopen, Except.isOk, Except.toBool] using hok r hr
  obtain ⟨built, hbuild⟩ := exists_build hopens
  have hopened : ∀ (r : Repository) t,
      Tracker.open? (plantedPlace ["/one", "/two"]) {} r.root = .ok t →
        ∃ place settings, Tracker.open? place settings r.root = .ok t :=
    fun r t hopen => ⟨_, _, hopen⟩
  let holder := built.after [(Tracker.tracking (plantedPlace ["/one", "/two"]), .rescan fun _ _ => {})]
  let registry : Registry Handle :=
    ⟨holder.registry.entries.reverse, by
      rw [List.map_reverse, List.nodup_reverse]
      exact holder.registry.distinct⟩
  have hperm : registry.entries.Perm holder.registry.entries := List.reverse_perm _
  have hkept : holder.registry = built.registry := by
    refine registry_after (fun step hstep => ?_) built
    rw [List.mem_singleton.mp hstep]
    exact ⟨registry_rescanAlone _, nofun⟩
  have hmissing : holder.missing (plantedPlace ["/one"]) = [goingRepository] := by
    rw [missing, repositories, hkept]
    change (built.repositories).filter _ = _
    rw [(each_build hbuild).2 (by decide +kernel)]
    decide +kernel
  obtain ⟨-, -, hfailed, -⟩ := renewed_of_startRescan hbuild hopened
    [(plantedPlace ["/one", "/two"], .rescan fun _ _ => {})] registry hperm (plantedPlace ["/one"])
    fun _ _ => {}
  rw [List.map_singleton] at hfailed
  change holder.missing _ ≠ [] → ∃ r ∈ holder.missing _, _ = SweepEnd.failed
    (.rescan r.root (holder.missing _).length _) at hfailed
  rw [hmissing] at hfailed
  obtain ⟨r, hr, hending⟩ := hfailed (List.cons_ne_nil _ _)
  rw [List.mem_singleton.mp hr] at hending
  exact ⟨built, registry, hbuild, hopened, rfl, hperm, hending⟩

end Holder

end IgnoreAtlas
