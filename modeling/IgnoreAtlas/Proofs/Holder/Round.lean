import IgnoreAtlas.Holder.Basic
import IgnoreAtlas.Proofs.Update.Dispatch

/-!
# A round of scans comes to every tracker once

A round goes through the entries of the registry in two ways: in turn, and, when a scan has panicked,
once more from the front to find the place where it was broken off. The repositories of a registry
are distinct, so the second way takes up exactly where the first one stopped (`scanBehind_resume`),
and both together come to every entry once (`scanInTurn_visits`). How the round ends is a matter of
the outcomes alone: the first panic, or else the first failure with the number of failures.

Nothing is said of the order of the entries, so these facts hold for every order in which a registry
may be gone through.
-/

namespace IgnoreAtlas

namespace Outcome

/-- What a scan that panicked leaves. -/
def payload? : Outcome → Option String
  | panicked payload => some payload
  | _ => none

/-- Why a scan failed. -/
def trouble? : Outcome → Option RescanTrouble
  | failed trouble => some trouble
  | _ => none

@[simp] theorem payload?_done : done.payload? = none := rfl
@[simp] theorem payload?_failed (t : RescanTrouble) : (failed t).payload? = none := rfl
@[simp] theorem payload?_panicked (s : String) : (panicked s).payload? = some s := rfl
@[simp] theorem trouble?_done : done.trouble? = none := rfl
@[simp] theorem trouble?_failed (t : RescanTrouble) : (failed t).trouble? = some t := rfl
@[simp] theorem trouble?_panicked (s : String) : (panicked s).trouble? = none := rfl

end Outcome

/-- A scan of a round: the repository, its tracker, and how the scan ended. -/
structure Visit where
  repository : Repository
  tracker : Handle
  outcome : Outcome

namespace Visit

/-- The entry of the registry that was scanned. -/
def entry (visit : Visit) : Repository × Handle := (visit.repository, visit.tracker)

/-- The scan as a step of the round. -/
def act (visit : Visit) : Act := .scanned visit.repository visit.tracker visit.outcome

/-- The failure of the scan, with the root of the repository. -/
def failure? (visit : Visit) : Option (Path × RescanTrouble) :=
  visit.outcome.trouble?.map (visit.repository.root, ·)

end Visit

namespace Holder

variable {σ : Type}

/-- The scans of a part of a round, one after another: each ends as its tracker says in the holder
that the scans before it have left. -/
inductive Visits (tracking : Tracking σ) : Holder σ → List Visit → Holder σ → Prop
  | none (holder : Holder σ) : Visits tracking holder [] holder
  | scan {holder next after : Holder σ} {repository : Repository} {tracker : Handle}
      {outcome : Outcome} {visits : List Visit} :
      tracking.rescan tracker holder = (outcome, next) → Visits tracking next visits after →
      Visits tracking holder (⟨repository, tracker, outcome⟩ :: visits) after

/-! ## The trackers behind a panic -/

/-- Once the place is reached, every entry is scanned. -/
theorem scanBehind_visits (tracking : Tracking σ) (broken : Repository) (holder : Holder σ)
    (entries : List (Repository × Handle)) :
    ∃ visits after, Visits tracking holder visits after ∧ visits.map Visit.entry = entries ∧
      scanBehind tracking broken true holder entries = (visits.map Visit.act, after) := by
  induction entries generalizing holder with
  | nil => exact ⟨[], holder, .none holder, rfl, rfl⟩
  | cons entry rest ih =>
    obtain ⟨repository, tracker⟩ := entry
    cases hscan : tracking.rescan tracker holder with
    | mk outcome next =>
      obtain ⟨visits, after, hvisits, hentries, hacts⟩ := ih next
      refine ⟨⟨repository, tracker, outcome⟩ :: visits, after, .scan hscan hvisits, ?_, ?_⟩
      · rw [List.map_cons, hentries]; rfl
      · simp only [scanBehind, hscan, hacts]; rfl

/-- The second way through the entries takes up where the first one stopped: nothing up to the
broken entry is scanned again, and nothing behind it is left out. -/
theorem scanBehind_resume (tracking : Tracking σ) (holder : Holder σ)
    {before rest : List (Repository × Handle)} {broken : Repository} {tracker : Handle}
    (fresh : ∀ entry ∈ before, entry.1.same broken = false) :
    scanBehind tracking broken false holder (before ++ (broken, tracker) :: rest) =
      scanBehind tracking broken true holder rest := by
  induction before with
  | nil =>
    have hself : broken.same broken = true := by simp [Repository.same, Path.same]
    simp only [List.nil_append, scanBehind, hself]
  | cons entry before ih =>
    have hother := fresh entry List.mem_cons_self
    rw [List.cons_append, scanBehind, hother]
    exact ih fun e he => fresh e (List.mem_cons_of_mem _ he)

/-! ## The whole round -/

/-- In a list of entries with distinct repositories, none before an entry has its repository. -/
theorem fresh_of_distinct {before rest : List (Repository × Handle)} {broken : Repository}
    {tracker : Handle}
    (distinct : ((before ++ (broken, tracker) :: rest).map fun e => e.1.root.components).Nodup) :
    ∀ entry ∈ before, entry.1.same broken = false := by
  intro entry he
  rw [List.map_append, List.map_cons, List.nodup_append] at distinct
  have hne := distinct.2.2 _ (List.mem_map_of_mem he) _ List.mem_cons_self
  simpa [Repository.same, Path.same] using hne

/-- How a part of a round ends, with these failures before it. -/
def endingAfter (failures : Failures) (visits : List Visit) : SweepEnd :=
  match visits.findSome? (·.outcome.payload?) with
  | some payload => .panicked payload
  | none =>
    (Failures.mk (failures.first?.or (visits.findSome? Visit.failure?))
      (failures.count + visits.countP (·.outcome.trouble?.isSome))).ending

theorem endingAfter_done (failures : Failures) (repository : Repository) (tracker : Handle)
    (visits : List Visit) :
    endingAfter failures (⟨repository, tracker, .done⟩ :: visits) = endingAfter failures visits := by
  simp [endingAfter, List.findSome?_cons, Visit.failure?]

theorem endingAfter_failed (failures : Failures) (repository : Repository) (tracker : Handle)
    (trouble : RescanTrouble) (visits : List Visit) :
    endingAfter failures (⟨repository, tracker, .failed trouble⟩ :: visits) =
      endingAfter (failures.add repository.root trouble) visits := by
  have hcount : failures.count +
      (Visit.mk repository tracker (.failed trouble) :: visits).countP (·.outcome.trouble?.isSome) =
        failures.count + 1 + visits.countP (·.outcome.trouble?.isSome) := by
    rw [List.countP_cons_of_pos rfl]
    omega
  simp [endingAfter, List.findSome?_cons, Visit.failure?, Failures.add, hcount]

theorem endingAfter_panicked (failures : Failures) (repository : Repository) (tracker : Handle)
    (payload : String) (visits : List Visit) :
    endingAfter failures (⟨repository, tracker, .panicked payload⟩ :: visits) =
      .panicked payload := by
  simp [endingAfter, List.findSome?_cons]

/-- The part of a round that is left comes to every entry that is left, once and in order, and ends
as its outcomes and the failures before it say.

The entries of the whole round are split where the part begins; the panic case needs the split to
find its place again. -/
theorem scanInTurn_visits (tracking : Tracking σ) (failures : Failures) (holder : Holder σ)
    (before rest : List (Repository × Handle))
    (distinct : ((before ++ rest).map fun e => e.1.root.components).Nodup) :
    ∃ visits after, Visits tracking holder visits after ∧ visits.map Visit.entry = rest ∧
      scanInTurn tracking (before ++ rest) failures holder rest =
        (visits.map Visit.act, endingAfter failures visits, after) := by
  induction rest generalizing before failures holder with
  | nil =>
    refine ⟨[], holder, .none holder, rfl, ?_⟩
    simp [scanInTurn, endingAfter]
  | cons entry rest ih =>
    obtain ⟨repository, tracker⟩ := entry
    have split : before ++ (repository, tracker) :: rest =
        (before ++ [(repository, tracker)]) ++ rest := by simp
    cases hscan : tracking.rescan tracker holder with
    | mk outcome next =>
      cases outcome with
      | done =>
        obtain ⟨visits, after, hvisits, hentries, hround⟩ := ih failures next _ (split ▸ distinct)
        refine ⟨⟨repository, tracker, .done⟩ :: visits, after, .scan hscan hvisits, ?_, ?_⟩
        · rw [List.map_cons, hentries]; rfl
        · rw [split]
          simp only [scanInTurn, hscan, hround, endingAfter_done]
          rfl
      | failed trouble =>
        obtain ⟨visits, after, hvisits, hentries, hround⟩ :=
          ih (failures.add repository.root trouble) next _ (split ▸ distinct)
        refine ⟨⟨repository, tracker, .failed trouble⟩ :: visits, after, .scan hscan hvisits,
          ?_, ?_⟩
        · rw [List.map_cons, hentries]; rfl
        · rw [split]
          simp only [scanInTurn, hscan, hround, endingAfter_failed]
          rfl
      | panicked payload =>
        obtain ⟨visits, after, hvisits, hentries, hacts⟩ :=
          scanBehind_visits tracking repository next rest
        refine ⟨⟨repository, tracker, .panicked payload⟩ :: visits, after, .scan hscan hvisits,
          ?_, ?_⟩
        · rw [List.map_cons, hentries]; rfl
        · simp only [scanInTurn, hscan, scanBehind_resume tracking next (fresh_of_distinct distinct),
            hacts, endingAfter_panicked]
          rfl

/-! ## How the round ends -/

/-- The ending of a whole round is a panic exactly if some scan panicked, and then it is the first
of these. -/
theorem endingAfter_eq_panicked_iff {visits : List Visit} {payload : String} :
    endingAfter {} visits = .panicked payload ↔
      visits.findSome? (·.outcome.payload?) = some payload := by
  unfold endingAfter
  cases visits.findSome? (·.outcome.payload?) with
  | some p => simp
  | none =>
    cases visits.findSome? Visit.failure? with
    | some f => simp [Failures.ending]
    | none => simp [Failures.ending]

/-- The ending of a whole round is a failure exactly if no scan panicked and some scan failed; it
names the first of these and how many there are. -/
theorem endingAfter_eq_failed_iff {visits : List Visit} {trouble : HolderTrouble} :
    endingAfter {} visits = .failed trouble ↔
      (∀ visit ∈ visits, visit.outcome.payload? = none) ∧
        ∃ root source, visits.findSome? Visit.failure? = some (root, source) ∧
          trouble = .rescan root (visits.countP (·.outcome.trouble?.isSome)) source := by
  unfold endingAfter
  rw [← List.findSome?_eq_none_iff]
  cases visits.findSome? (·.outcome.payload?) with
  | some p => simp
  | none =>
    cases visits.findSome? Visit.failure? with
    | some first =>
      simp only [Failures.ending, Option.none_or, Nat.zero_add, SweepEnd.failed.injEq]
      constructor
      · rintro rfl
        exact ⟨trivial, first.1, first.2, rfl, rfl⟩
      · rintro ⟨-, root, source, hfirst, rfl⟩
        cases hfirst
        rfl
    | none => simp [Failures.ending]

/-- A scan that neither panicked nor failed is done. -/
theorem eq_done_iff {outcome : Outcome} :
    outcome = .done ↔ outcome.payload? = none ∧ outcome.trouble? = none := by
  cases outcome <;> simp

/-- A whole round is done exactly if every scan is. -/
theorem endingAfter_eq_done_iff {visits : List Visit} :
    endingAfter {} visits = .done ↔ ∀ visit ∈ visits, visit.outcome = .done := by
  have hall : (∀ visit ∈ visits, visit.outcome = .done) ↔
      visits.findSome? (·.outcome.payload?) = none ∧ visits.findSome? Visit.failure? = none := by
    simp only [List.findSome?_eq_none_iff, eq_done_iff, Visit.failure?, Option.map_eq_none_iff]
    exact ⟨fun h => ⟨fun v hv => (h v hv).1, fun v hv => (h v hv).2⟩,
      fun h v hv => ⟨h.1 v hv, h.2 v hv⟩⟩
  rw [hall]
  unfold endingAfter
  cases visits.findSome? (·.outcome.payload?) with
  | some p => simp
  | none =>
    cases visits.findSome? Visit.failure? with
    | some f => simp [Failures.ending]
    | none => simp [Failures.ending]

/-- A round is the scans of all entries, each once and in order, between the two announcements. -/
theorem startRescan_eq (tracking : Tracking σ) (react : Update.Reactions) (holder : Holder σ) :
    ∃ visits after,
      Visits tracking { holder with bus := (holder.bus.notify react .started).2 } visits after ∧
      visits.map Visit.entry = holder.registry.entries ∧
      holder.startRescan tracking react =
        (⟨.announced .started (holder.bus.notify react .started).1 ::
            visits.map Visit.act ++ [.announced .finished (after.bus.notify react .finished).1],
          endingAfter {} visits⟩,
        { after with bus := (after.bus.notify react .finished).2 }) := by
  obtain ⟨visits, after, hvisits, hentries, hround⟩ :=
    scanInTurn_visits tracking {} { holder with bus := (holder.bus.notify react .started).2 } []
      holder.registry.entries holder.registry.distinct
  rw [List.nil_append] at hround
  refine ⟨visits, after, hvisits, hentries, ?_⟩
  simp only [startRescan]
  rw [hround]

/-- **A round of scans.** Whatever the order of the registry, the outcomes of the scans and the doings
of the listeners, the steps of a round are: the start is announced once, to the listeners that are
registered then; the tracker of every entry of the registry is scanned, each once; the finish is
announced once, to the listeners that are registered by then. The round is done exactly if every
scan is. It panics exactly if some scan did, with the first panic. Otherwise it fails with the first
failure and their number. -/
theorem startRescan_visits_each_once (tracking : Tracking σ) (react : Update.Reactions)
    (holder : Holder σ) :
    ∃ (visits : List Visit) (startCalls finishCalls : List Update.Call) (before after : Holder σ),
      (holder.startRescan tracking react).1.acts =
        .announced .started startCalls ::
          visits.map Visit.act ++ [.announced .finished finishCalls] ∧
      visits.map Visit.entry = holder.registry.entries ∧
      (visits.map (·.repository.root.components)).Nodup ∧
      Visits tracking before visits after ∧
      before = { holder with bus := (holder.bus.notify react .started).2 } ∧
      before.bus.channel = holder.bus.channel.send .started ∧
      startCalls.map Update.Call.listener = holder.bus.listeners ∧
      (holder.startRescan tracking react).2 =
        { after with bus := (after.bus.notify react .finished).2 } ∧
      (holder.startRescan tracking react).2.bus.channel = after.bus.channel.send .finished ∧
      finishCalls.map Update.Call.listener = after.bus.listeners ∧
      ((holder.startRescan tracking react).1.ending = .done ↔
        ∀ visit ∈ visits, visit.outcome = .done) ∧
      (∀ payload, (holder.startRescan tracking react).1.ending = .panicked payload ↔
        visits.findSome? (·.outcome.payload?) = some payload) ∧
      (∀ trouble, (holder.startRescan tracking react).1.ending = .failed trouble ↔
        (∀ visit ∈ visits, visit.outcome.payload? = none) ∧
          ∃ root source, visits.findSome? Visit.failure? = some (root, source) ∧
            trouble = .rescan root (visits.countP (·.outcome.trouble?.isSome)) source) := by
  obtain ⟨visits, after, hvisits, hentries, hrescan⟩ := startRescan_eq tracking react holder
  have hdistinct : (visits.map (·.repository.root.components)).Nodup := by
    have hd := holder.registry.distinct
    rw [← hentries, List.map_map] at hd
    exact hd
  rw [hrescan]
  exact ⟨visits, _, _, _, after, rfl, hentries, hdistinct, hvisits, rfl,
    Update.Bus.notify_channel .., Update.Bus.map_listener_notify .., rfl,
    Update.Bus.notify_channel .., Update.Bus.map_listener_notify .., endingAfter_eq_done_iff,
    fun _ => endingAfter_eq_panicked_iff, fun _ => endingAfter_eq_failed_iff⟩

end Holder

end IgnoreAtlas
