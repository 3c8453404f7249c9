import IgnoreAtlas.Proofs.Holder.Trackers

/-!
# Runs of a holder

A run is a list of requests to a holder. What trackers do may change from one request to the next,
and so may the place, the router and the doings of the listeners; a router may name repositories that
the holder was not built for.

Whatever a run does to a holder is made of three things (`Alters`): one tracker is changed, the
listeners and the channel are, or all trackers are let go of. A tracker that uses the holder while it
scans does these things too, so a property that the three of them keep is kept by every run
(`alters_after`). A property of each repository and its tracker is kept by a run of trackers that keep
to themselves, if what is done to one tracker keeps it (`Each.perform`).
-/

namespace IgnoreAtlas

namespace Holder

variable {σ : Type}

/-- What can be asked of a holder and can change it, or might. -/
inductive Request
  /-- Version control has started. -/
  | start
  | adjust (scope : DirtyScope)
  | add (place : Place) (router : Router) (file : Path)
  | ask (place : Place) (router : Router) (file : Path)
  /-- A listener is registered or unregistered. -/
  | listen (change : Update.Change)
  | rescan (react : Update.Reactions)
  | cleanAll

/-- One request. -/
def perform (tracking : Tracking σ) (holder : Holder σ) : Request → Holder σ
  | .start => holder.versionControlStarted
  | .adjust scope => holder.adjust scope
  | .add place router file => holder.addFile place router tracking file
  | .ask place router file => (holder.containsFile place router tracking file).2
  | .listen change => { holder with bus := holder.bus.apply change }
  | .rescan react => (holder.startRescan tracking react).2
  | .cleanAll => holder.cleanAll tracking

/-- Requests, one after the other. -/
def after (holder : Holder σ) (run : List (Tracking σ × Request)) : Holder σ :=
  run.foldl (fun holder step => holder.perform step.1 step.2) holder

/-- One holder comes from another by changing trackers, by changing the listeners and the channel, and
by letting go of all trackers. `disposals` counts how often a tracker was disposed of: letting go of
it adds one, and nothing else changes the number. -/
inductive Alters (disposals : σ → Nat) : Holder σ → Holder σ → Prop
  | refl (holder : Holder σ) : Alters disposals holder holder
  | change {holder next : Holder σ} (h : Alters disposals holder next) (handle : Handle)
      {change : σ → σ}
      (hkeep : ∀ t, next.tracker? handle = some t → disposals (change t) = disposals t) :
      Alters disposals holder (next.update handle change)
  | announce {holder next : Holder σ} (h : Alters disposals holder next) (bus : Update.Bus) :
      Alters disposals holder { next with bus }
  | clean {holder next : Holder σ} (h : Alters disposals holder next) {tracking : Tracking σ}
      (hdispose : ∀ t, disposals (tracking.dispose t) = disposals t + 1) :
      Alters disposals holder (next.cleanAll tracking)

end Holder

/-- The trackers count how often they are disposed of: disposing adds one, and nothing else changes
the number. A tracker that uses the holder while it scans does to it what anyone can do. -/
structure Tracking.Counts {σ : Type} (disposals : σ → Nat) (tracking : Tracking σ) : Prop where
  addFile : ∀ file t, disposals (tracking.addFile file t) = disposals t
  containsFile : ∀ file t, disposals (tracking.containsFile file t).2 = disposals t
  dispose : ∀ t, disposals (tracking.dispose t) = disposals t + 1
  rescan : ∀ handle holder, Holder.Alters disposals holder (tracking.rescan handle holder).2

/-- No tracker lets go of all trackers while it scans. -/
def Tracking.Stays {σ : Type} (tracking : Tracking σ) : Prop :=
  ∀ handle holder, (tracking.rescan handle holder).2.registry = holder.registry

namespace Holder

/-! ## What a run is made of -/

section Alters

variable {σ : Type} {disposals : σ → Nat} {tracking : Tracking σ} {holder next last : Holder σ}

theorem Alters.trans (h : Alters disposals holder next) (h' : Alters disposals next last) :
    Alters disposals holder last := by
  induction h' with
  | refl => exact h
  | change _ handle hkeep ih => exact ih.change handle hkeep
  | announce _ bus ih => exact ih.announce bus
  | clean _ hdispose ih => exact ih.clean hdispose

/-- A scan that uses nothing but its own tracker changes that one. -/
theorem alters_rescanAlone {scan : σ → Outcome × σ}
    (hscan : ∀ t, disposals (scan t).2 = disposals t) (handle : Handle) (holder : Holder σ) :
    Alters disposals holder (Tracking.rescanAlone scan handle holder).2 := by
  unfold Tracking.rescanAlone
  split
  · next tracker ht =>
    refine (Alters.refl holder).change handle fun t ht' => ?_
    rw [← Option.some.inj (ht.symm.trans ht')]
    exact hscan tracker
  · exact .refl holder

/-- Scans one after another do what each of them does. -/
theorem Visits.alters (hcounts : tracking.Counts disposals) {visits : List Visit}
    (h : Visits tracking holder visits next) : Alters disposals holder next := by
  induction h with
  | none holder => exact .refl holder
  | @scan holder _ _ _ tracker _ _ hscan _ ih =>
    have hone := hcounts.rescan tracker holder
    rw [hscan] at hone
    exact hone.trans ih

/-- Every request is made of the three things. -/
theorem alters_perform (hcounts : tracking.Counts disposals) (holder : Holder σ)
    (request : Request) : Alters disposals holder (holder.perform tracking request) := by
  cases request with
  | start | adjust => exact .refl holder
  | add place router file =>
    rw [perform, addFile]
    split
    · exact (Alters.refl holder).change _ fun t _ => hcounts.addFile _ t
    · exact .refl holder
  | ask place router file =>
    rw [perform, containsFile]
    split
    · next handle spelled _ =>
      split
      · next tracker ht =>
        refine (Alters.refl holder).change handle fun t ht' => ?_
        rw [← Option.some.inj (ht.symm.trans ht')]
        exact hcounts.containsFile spelled tracker
      · exact .refl holder
    · exact .refl holder
  | listen change => exact (Alters.refl holder).announce _
  | rescan react =>
    -- The round is an announcement, the visits and an announcement.
    obtain ⟨visits, last, hvisits, -, hround⟩ := startRescan_eq tracking react holder
    rw [perform, hround]
    exact (((Alters.refl holder).announce _).trans (hvisits.alters hcounts)).announce _
  | cleanAll => exact (Alters.refl holder).clean hcounts.dispose

/-- So is every run. -/
theorem alters_after {run : List (Tracking σ × Request)}
    (hcounts : ∀ step ∈ run, step.1.Counts disposals) (holder : Holder σ) :
    Alters disposals holder (holder.after run) := by
  induction run generalizing holder with
  | nil => exact .refl holder
  | cons step run ih =>
    have hfirst := alters_perform (hcounts step List.mem_cons_self) holder step.2
    exact hfirst.trans (ih (fun s hs => hcounts s (List.mem_cons_of_mem _ hs)) _)

end Alters

/-! ## What a run keeps -/

section Keeps

variable {σ : Type} {tracking : Tracking σ} {holder next : Holder σ}

theorem Visits.registry_eq (hstays : tracking.Stays) {visits : List Visit}
    (h : Visits tracking holder visits next) : next.registry = holder.registry := by
  induction h with
  | none => rfl
  | @scan holder _ _ _ tracker _ _ hscan _ ih =>
    have hone := hstays tracker holder
    rw [hscan] at hone
    exact ih.trans hone

/-- Only letting go of all trackers changes the registry. -/
theorem registry_perform (hstays : tracking.Stays) {request : Request} (h : request ≠ .cleanAll)
    (holder : Holder σ) : (holder.perform tracking request).registry = holder.registry := by
  cases request with
  | start | adjust | listen => rfl
  | add place router file =>
    rw [perform, addFile]
    split <;> rfl
  | ask place router file =>
    rw [perform, containsFile]
    split
    · split <;> rfl
    · rfl
  | rescan react =>
    obtain ⟨visits, last, hvisits, -, hround⟩ := startRescan_eq tracking react holder
    have hsame := hvisits.registry_eq hstays
    rw [perform, hround]
    exact hsame
  | cleanAll => exact absurd rfl h

theorem registry_after {run : List (Tracking σ × Request)}
    (h : ∀ step ∈ run, step.1.Stays ∧ step.2 ≠ .cleanAll) (holder : Holder σ) :
    (holder.after run).registry = holder.registry := by
  induction run generalizing holder with
  | nil => rfl
  | cons step run ih =>
    obtain ⟨hstays, hrequest⟩ := h step List.mem_cons_self
    exact (ih (fun s hs => h s (List.mem_cons_of_mem _ hs)) _).trans
      (registry_perform hstays hrequest holder)

/-- A request keeps what it keeps of every tracker by itself. -/
theorem Each.perform {p : Repository → σ → Prop} (h : holder.Each p) {scan : σ → Outcome × σ}
    (halone : tracking.rescan = Tracking.rescanAlone scan)
    (hscan : ∀ r t, p r t → p r (scan t).2)
    (hadd : ∀ r file t, p r t → p r (tracking.addFile file t))
    (hask : ∀ r file t, p r t → p r (tracking.containsFile file t).2) (request : Request) :
    (holder.perform tracking request).Each p := by
  cases request with
  | start | adjust | listen => exact h
  | add place router file =>
    rw [Holder.perform, addFile]
    split
    · exact h.update fun e _ _ t _ => hadd e.1 _ t
    · exact h
  | ask place router file =>
    rw [Holder.perform, containsFile]
    split
    · next handle spelled _ =>
      split
      · next tracker ht =>
        refine h.update fun e _ _ t ht' hp => ?_
        rw [← Option.some.inj (ht.symm.trans ht')] at hp
        exact hask e.1 spelled tracker hp
      · exact h
    · exact h
  | rescan react => exact (h.startRescan halone react fun e _ => hscan e.1).2.1
  | cleanAll => exact each_cleanAll tracking holder

end Keeps

end Holder

end IgnoreAtlas
