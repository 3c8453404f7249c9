import IgnoreAtlas.Proofs.Holder.Run

/-!
# From the building of a holder to its end

A holder is built with a tracker for each repository, and these are all the trackers that it ever has:
their numbers are those of the registry (`built_of_build`). It is `Live` until all trackers are let go
of: the registry is the one that was built, and no tracker has been disposed of. From then on it is
`Inert`: the registry is empty, and every tracker has been disposed of once. Nothing that is done to a
holder, and no tracker that uses it while it scans, leads to a third state (`live_or_inert_of_alters`)
or back (`Inert.of_alters`).

A live holder hands a file to the tracker of the repository that the router names, and to no other
(`Reached`). An inert one hands it to none, and a round of its scans is two announcements
(`startRescan_of_empty`).
-/

namespace IgnoreAtlas

namespace Holder

/-! ## What is built -/

section Built

variable {σ : Type} {make : Repository → Except Trouble σ} {repositories : List Repository}
  {registry : Registry Handle} {trackers : List σ} {holder : Holder σ}

/-- The registry and the trackers are made for these repositories. -/
structure Built (make : Repository → Except Trouble σ) (repositories : List Repository)
    (registry : Registry Handle) (trackers : List σ) : Prop where
  /-- The registry has them all, and no others. -/
  contains : ∀ r, registry.contains r ↔ ∃ s ∈ repositories, s.same r
  listed : ∀ r ∈ registry.repositories, r ∈ repositories
  /-- The numbers of the trackers are those of the registry. -/
  numbered : registry.trackers = List.range trackers.length
  made : ∀ t ∈ trackers, ∃ r ∈ repositories, make r = .ok t

theorem built_empty : Built make [] .empty [] where
  contains _ := ⟨nofun, nofun⟩
  listed _ h := h
  numbered := rfl
  made _ h := absurd h List.not_mem_nil

/-- A repository that is there already is passed over. -/
theorem Built.pass (h : Built make repositories registry trackers) {r : Repository}
    (hthere : registry.contains r) : Built make (repositories ++ [r]) registry trackers where
  contains q := by
    rw [h.contains q]
    constructor
    · rintro ⟨s, hs, hsame⟩
      exact ⟨s, List.mem_append_left _ hs, hsame⟩
    · rintro ⟨s, hs, hsame⟩
      rcases List.mem_append.mp hs with hs | hs
      · exact ⟨s, hs, hsame⟩
      · obtain ⟨s', hs', hsame'⟩ := (h.contains r).mp hthere
        rw [List.mem_singleton.mp hs] at hsame
        refine ⟨s', hs', Path.same_iff.mpr ?_⟩
        exact (Path.same_iff.mp hsame').trans (Path.same_iff.mp hsame)
  listed q hq := List.mem_append_left _ (h.listed q hq)
  numbered := h.numbered
  made t ht := (h.made t ht).imp fun _ hs => ⟨List.mem_append_left _ hs.1, hs.2⟩

/-- For any other one a tracker is made, which gets the next number. -/
theorem Built.add (h : Built make repositories registry trackers) {r : Repository} {tracker : σ}
    (hnot : ¬registry.contains r) (hmake : make r = .ok tracker) :
    Built make (repositories ++ [r]) (registry.add r trackers.length hnot)
      (trackers ++ [tracker]) where
  contains q := by
    rw [Registry.contains_add, h.contains q]
    simp [or_and_right, exists_or]
  listed q hq := by
    rw [Registry.repositories_add] at hq
    rcases List.mem_append.mp hq with hq | hq
    · exact List.mem_append_left _ (h.listed q hq)
    · exact List.mem_append_right _ hq
  numbered := by
    rw [Registry.trackers_add, h.numbered, List.length_append, List.length_singleton,
      List.range_succ]
  made t ht := by
    rcases List.mem_append.mp ht with ht | ht
    · exact (h.made t ht).imp fun _ hs => ⟨List.mem_append_left _ hs.1, hs.2⟩
    · rw [List.mem_singleton.mp ht]
      exact ⟨r, List.mem_append_right _ List.mem_cons_self, hmake⟩

/-- Building goes on from what is built so far. -/
theorem Built.buildFrom {done rest : List Repository} {result : Registry Handle} {after : List σ}
    (h : Built make done registry trackers)
    (hbuild : Registry.buildFrom (makeNext make) registry trackers rest = (.ok result, after)) :
    Built make (done ++ rest) result after := by
  -- What is built for `done` carries the induction on what is left.
  induction rest generalizing done registry trackers with
  | nil =>
    cases hbuild
    rw [List.append_nil]
    exact h
  | cons r rest ih =>
    rw [List.append_cons]
    unfold Registry.buildFrom at hbuild
    split at hbuild
    · next hthere => exact ih (h.pass hthere) hbuild
    · next hnot =>
      unfold makeNext at hbuild
      cases hmake : make r with
      | error trouble => simp [hmake] at hbuild
      | ok tracker =>
        simp only [hmake] at hbuild
        exact ih (h.add hnot hmake) hbuild

theorem built_of_build (h : build make repositories = .ok holder) :
    Built make repositories holder.registry holder.trackers := by
  unfold build at h
  split at h
  · next registry trackers hbuild =>
    cases h
    exact built_empty.buildFrom hbuild
  · cases h

end Built

/-! ## Letting go of all trackers -/

section CleanAll

variable {σ : Type} {tracking : Tracking σ} {holder : Holder σ}

/-- Changing trackers one after the other changes each of them once. -/
theorem tracker?_foldl_update {change : σ → σ} {handles : List Handle} (hnodup : handles.Nodup)
    (holder : Holder σ) (handle : Handle) :
    (handles.foldl (fun holder handle => holder.update handle change) holder).tracker? handle =
      if handle ∈ handles then (holder.tracker? handle).map change else holder.tracker? handle := by
  induction handles generalizing holder with
  | nil => rfl
  | cons first rest ih =>
    obtain ⟨hfirst, hrest⟩ := List.nodup_cons.mp hnodup
    rw [List.foldl_cons, ih hrest, tracker?_update]
    -- The first one is not among the others, so its change is the only one.
    by_cases heq : first = handle
    · subst heq
      rw [if_neg hfirst, if_pos rfl, if_pos List.mem_cons_self]
    · have hmem : handle ∈ first :: rest ↔ handle ∈ rest := by
        simp [List.mem_cons, Ne.symm heq]
      simp only [if_neg heq, hmem]

/-- Letting go of all trackers disposes of each one in the registry once, and leaves the others. -/
theorem tracker?_cleanAll (tracking : Tracking σ) (hnodup : holder.registry.trackers.Nodup) (handle : Handle) :
    (holder.cleanAll tracking).tracker? handle =
      if handle ∈ holder.registry.trackers then (holder.tracker? handle).map tracking.dispose
      else holder.tracker? handle :=
  tracker?_foldl_update hnodup { holder with registry := .empty } handle

theorem length_foldl_update (change : σ → σ) (handles : List Handle) (holder : Holder σ) :
    (handles.foldl (fun holder handle => holder.update handle change) holder).trackers.length =
      holder.trackers.length := by
  induction handles generalizing holder with
  | nil => rfl
  | cons handle rest ih => rw [List.foldl_cons, ih, update, List.length_modify]

theorem cleanAll_of_empty (h : holder.registry = .empty) : holder.cleanAll tracking = holder := by
  unfold cleanAll
  rw [h]
  exact congrArg (Holder.mk · holder.trackers holder.bus) h.symm

end CleanAll

/-! ## The two states -/

section States

variable {σ : Type} {disposals : σ → Nat} {registry : Registry Handle} {holder next : Holder σ}
  {tracking : Tracking σ}

/-- The registry is the one that was built, and no tracker has been disposed of. -/
structure Live (disposals : σ → Nat) (registry : Registry Handle) (holder : Holder σ) : Prop where
  kept : holder.registry = registry
  numbered : registry.trackers = List.range holder.trackers.length
  undisposed : ∀ handle t, holder.tracker? handle = some t → disposals t = 0

/-- The registry is empty, and every tracker has been disposed of once. -/
structure Inert (disposals : σ → Nat) (holder : Holder σ) : Prop where
  empty : holder.registry = .empty
  disposed : ∀ handle t, holder.tracker? handle = some t → disposals t = 1

/-- Changing a tracker keeps a number of disposals that all trackers have. -/
theorem disposals_update {count : Nat} {handle : Handle} {change : σ → σ}
    (h : ∀ handle t, holder.tracker? handle = some t → disposals t = count)
    (hkeep : ∀ t, holder.tracker? handle = some t → disposals (change t) = disposals t) :
    ∀ other t, (holder.update handle change).tracker? other = some t → disposals t = count := by
  intro other t ht
  rw [tracker?_update] at ht
  split at ht
  · next heq =>
    obtain ⟨before, hbefore, rfl⟩ := Option.map_eq_some_iff.mp ht
    rw [hkeep before (heq ▸ hbefore)]
    exact h other before hbefore
  · exact h other t ht

theorem Live.mem_trackers_iff (h : holder.Live disposals registry) {handle : Handle} :
    handle ∈ registry.trackers ↔ ∃ t, holder.tracker? handle = some t := by
  rw [h.numbered, List.mem_range, tracker?, ← Option.isSome_iff_exists]
  simp

/-- Letting go of all trackers disposes of every one of them. -/
theorem Live.trackers_cleanAll (h : holder.Live disposals registry) :
    (holder.cleanAll tracking).trackers = holder.trackers.map tracking.dispose := by
  have hnodup : holder.registry.trackers.Nodup := by
    rw [h.kept, h.numbered]
    exact List.nodup_range
  refine List.ext_getElem? fun handle => ?_
  have hone := tracker?_cleanAll tracking hnodup handle
  rw [tracker?, tracker?] at hone
  rw [hone, List.getElem?_map, h.kept]
  by_cases hmem : handle ∈ registry.trackers
  · rw [if_pos hmem]
  · -- No tracker has a number that is not in the registry.
    have hnone : holder.trackers[handle]? = none :=
      Option.not_isSome_iff_eq_none.mp fun hsome =>
        hmem (h.mem_trackers_iff.mpr (Option.isSome_iff_exists.mp hsome))
    rw [if_neg hmem, hnone, Option.map_none]

/-- So a live holder becomes an inert one. -/
theorem Live.cleanAll (h : holder.Live disposals registry)
    (hdispose : ∀ t, disposals (tracking.dispose t) = disposals t + 1) :
    (holder.cleanAll tracking).Inert disposals := by
  refine ⟨registry_cleanAll tracking holder, fun handle t ht => ?_⟩
  rw [tracker?, h.trackers_cleanAll, List.getElem?_map] at ht
  obtain ⟨before, hbefore, rfl⟩ := Option.map_eq_some_iff.mp ht
  rw [hdispose, h.undisposed handle before hbefore]

/-- What is done to an inert holder leaves it inert. -/
theorem Inert.of_alters (h : holder.Inert disposals) (halters : Alters disposals holder next) :
    next.Inert disposals := by
  induction halters with
  | refl => exact h
  | change _ handle hkeep ih => exact ⟨ih.empty, disposals_update ih.disposed hkeep⟩
  | announce _ bus ih => exact ⟨ih.empty, ih.disposed⟩
  | clean _ _ ih =>
    rw [cleanAll_of_empty ih.empty]
    exact ih

/-- What is done to a live holder leaves it live, or makes it inert. -/
theorem live_or_inert_of_alters (h : holder.Live disposals registry)
    (halters : Alters disposals holder next) :
    next.Live disposals registry ∨ next.Inert disposals := by
  induction halters with
  | refl => exact .inl h
  | @change next _ handle change hkeep ih =>
    rcases ih with hlive | hinert
    · refine .inl ⟨hlive.kept, ?_, disposals_update hlive.undisposed hkeep⟩
      rw [hlive.numbered, update, List.length_modify]
    · exact .inr (hinert.of_alters ((Alters.refl _).change handle hkeep))
  | announce _ bus ih =>
    exact ih.imp (fun hlive => ⟨hlive.kept, hlive.numbered, hlive.undisposed⟩)
      fun hinert => ⟨hinert.empty, hinert.disposed⟩
  | clean _ hdispose ih =>
    -- The only step from one state to the other.
    rcases ih with hlive | hinert
    · exact .inr (hlive.cleanAll hdispose)
    · exact .inr (hinert.of_alters ((Alters.refl _).clean hdispose))

/-- No tracker comes in or goes. -/
theorem Alters.length_trackers (h : Alters disposals holder next) :
    next.trackers.length = holder.trackers.length := by
  induction h with
  | refl => rfl
  | change _ _ _ ih => rw [update, List.length_modify, ih]
  | announce _ _ ih => exact ih
  | clean _ _ ih => exact (length_foldl_update _ _ _).trans ih

/-- What leaves the registry of a live holder leaves it live. -/
theorem Live.of_alters (h : holder.Live disposals registry)
    (halters : Alters disposals holder next) (hsame : next.registry = registry) :
    next.Live disposals registry := by
  rcases live_or_inert_of_alters h halters with hlive | hinert
  · exact hlive
  · -- Then the registry is empty, and there is no tracker to be disposed of.
    have hnumbered : registry.trackers = List.range next.trackers.length := by
      rw [halters.length_trackers, h.numbered]
    refine ⟨hsame, hnumbered, fun handle t ht => ?_⟩
    have hmem : handle ∈ registry.trackers := by
      rw [hnumbered]
      exact List.mem_range.mpr (List.getElem?_eq_some_iff.mp ht).1
    rw [← hsame, hinert.empty] at hmem
    exact absurd hmem List.not_mem_nil

end States

end Holder

/-! ## Whom a file reaches -/

/-- The router names the repository for the file: it finds a root, and the repository by the root. -/
def Router.Names (router : Router) (file : Path) (repository : Repository) : Prop :=
  ∃ root named, router.rootOf? file = some root ∧ router.withRoot? root = some named ∧
    repository.same named

namespace Router

variable {α : Type} {router : Router} {registry : Registry α} {file : Path}

/-- A file has the tracker of the repository that the router names, if that is in the registry. -/
theorem locate?_eq_some_iff {tracker : α} :
    router.locate? registry file = some tracker ↔
      ∃ e ∈ registry.entries, router.Names file e.1 ∧ e.2 = tracker := by
  simp only [locate?, Option.bind_eq_bind, Option.bind_eq_some_iff, Registry.get?_eq_some_iff]
  constructor
  · rintro ⟨root, hroot, named, hnamed, e, he, hsame, htracker⟩
    exact ⟨e, he, ⟨root, named, hroot, hnamed, Path.same_iff.mpr hsame⟩, htracker⟩
  · rintro ⟨e, he, ⟨root, named, hroot, hnamed, hsame⟩, htracker⟩
    exact ⟨root, hroot, named, hnamed, e, he, Path.same_iff.mp hsame, htracker⟩

/-- It names one repository of the registry at most. -/
theorem Names.unique {a b : Repository × α} (ha : a ∈ registry.entries) (hb : b ∈ registry.entries)
    (hna : router.Names file a.1) (hnb : router.Names file b.1) : a = b := by
  obtain ⟨root, named, hroot, hnamed, hsame⟩ := hna
  obtain ⟨root', named', hroot', hnamed', hsame'⟩ := hnb
  rw [hroot, Option.some_inj] at hroot'
  subst hroot'
  rw [hnamed, Option.some_inj] at hnamed'
  subst hnamed'
  exact Registry.eq_of_components_eq ha hb
    ((Path.same_iff.mp hsame).trans (Path.same_iff.mp hsame').symm)

end Router

namespace Holder

section Reached

variable {σ : Type} {holder : Holder σ} {place : Place} {router : Router} {tracking : Tracking σ}
  {file : Path}

theorem locate?_eq_some_iff {handle : Handle} {spelled : Path} :
    holder.locate? place router file = some (handle, spelled) ↔
      spelled = place.normalize file ∧
        ∃ e ∈ holder.registry.entries, router.Names (place.normalize file) e.1 ∧ e.2 = handle := by
  simp only [locate?, Option.map_eq_some_iff, Router.locate?_eq_some_iff, Prod.mk.injEq]
  constructor
  · rintro ⟨_, hentry, rfl, rfl⟩
    exact ⟨rfl, hentry⟩
  · rintro ⟨rfl, hentry⟩
    exact ⟨handle, hentry, rfl, rfl⟩

/-- A file reaches the tracker of the repository that the router names, and that one alone is asked or
changed. -/
theorem reached_of_names (tracking : Tracking σ) {e : Repository × Handle} {t : σ} (he : e ∈ holder.registry.entries)
    (hnames : router.Names (place.normalize file) e.1) (ht : holder.tracker? e.2 = some t) :
    holder.addFile place router tracking file =
        holder.update e.2 (tracking.addFile (place.normalize file)) ∧
      holder.containsFile place router tracking file =
        ((tracking.containsFile (place.normalize file) t).1,
          holder.update e.2 fun _ => (tracking.containsFile (place.normalize file) t).2) := by
  have hlocate : holder.locate? place router file = some (e.2, place.normalize file) :=
    locate?_eq_some_iff.mpr ⟨rfl, e, he, hnames, rfl⟩
  constructor
  · rw [addFile, hlocate]
  · rw [containsFile, hlocate]
    simp only [ht]

/-- A file for which the router names no repository of the registry reaches no tracker. -/
theorem unreached_of_not_names
    (h : ∀ e ∈ holder.registry.entries, ¬router.Names (place.normalize file) e.1) :
    holder.addFile place router tracking file = holder ∧
      holder.containsFile place router tracking file = (false, holder) := by
  have hlocate : holder.locate? place router file = none := by
    rw [Option.eq_none_iff_forall_ne_some]
    rintro ⟨handle, spelled⟩ hsome
    obtain ⟨-, e, he, hnames, -⟩ := locate?_eq_some_iff.mp hsome
    exact h e he hnames
  constructor
  · rw [addFile, hlocate]
  · rw [containsFile, hlocate]

end Reached

/-! ## With an empty registry -/

section Empty

variable {σ : Type} {holder : Holder σ} {tracking : Tracking σ}

/-- A round of scans of no trackers is the two announcements, and is done. -/
theorem startRescan_of_empty (h : holder.registry = .empty) (react : Update.Reactions) :
    ∃ (startCalls finishCalls : List Update.Call) (bus : Update.Bus),
      holder.startRescan tracking react =
        (⟨[.announced .started startCalls, .announced .finished finishCalls], .done⟩,
          { holder with bus }) ∧
      bus.channel.sent = holder.bus.channel.sent ++ [.started, .finished] := by
  obtain ⟨visits, last, hvisits, hentries, hround⟩ := startRescan_eq tracking react holder
  rw [h] at hentries
  -- Every visit is for an entry of the registry, so there is none.
  obtain rfl : visits = [] := List.map_eq_nil_iff.mp hentries
  cases hvisits
  refine ⟨_, _, _, hround, ?_⟩
  rw [Update.Bus.notify_channel, Update.Channel.send]
  simp only [Update.Bus.notify_channel, Update.Channel.send]
  simp

/-- With an empty registry nothing is held, asked or scanned. -/
theorem silent_of_empty (h : holder.registry = .empty) (tracking : Tracking σ) :
    holder.repositories = [] ∧ holder.values tracking = [] ∧ holder.isBusy tracking = false ∧
      ∀ place router file, holder.addFile place router tracking file = holder ∧
        holder.containsFile place router tracking file = (false, holder) := by
  have hnone : holder.registered = [] := by
    rw [registered, h]
    rfl
  refine ⟨by rw [repositories, h]; rfl, by rw [values, hnone]; rfl, by rw [isBusy, hnone]; rfl,
    fun place router file => unreached_of_not_names fun e he => ?_⟩
  rw [h] at he
  exact absurd he List.not_mem_nil

end Empty

/-! ## The life of a holder -/

section Life

variable {σ : Type} {make : Repository → Except Trouble σ} {repositories : List Repository}
  {holder : Holder σ} {disposals : σ → Nat} {run : List (Tracking σ × Request)}

theorem live_of_build (hbuild : build make repositories = .ok holder)
    (hfresh : ∀ r t, make r = .ok t → disposals t = 0) :
    holder.Live disposals holder.registry := by
  have hbuilt := built_of_build hbuild
  refine ⟨rfl, hbuilt.numbered, fun handle t ht => ?_⟩
  obtain ⟨r, -, hmake⟩ := hbuilt.made t (List.mem_of_getElem? ht)
  exact hfresh r t hmake

/-- A run in which all trackers are let go of leaves a holder inert, whatever comes before and after. -/
theorem inert_after_of_cleanAll {registry : Registry Handle} (h : holder.Live disposals registry)
    (hcounts : ∀ step ∈ run, step.1.Counts disposals) (hclean : ∃ step ∈ run, step.2 = .cleanAll) :
    (holder.after run).Inert disposals := by
  obtain ⟨⟨tracking, request⟩, hmem, rfl⟩ := hclean
  obtain ⟨front, back, rfl⟩ := List.append_of_mem hmem
  have hbefore := live_or_inert_of_alters h
    (alters_after (fun s hs => hcounts s (List.mem_append_left _ hs)) holder)
  -- Whatever the front of the run has done, the request itself leaves the holder inert.
  have hcleaned : ((holder.after front).cleanAll tracking).Inert disposals := by
    have hdispose := (hcounts _ hmem).dispose
    rcases hbefore with hlive | hinert
    · exact hlive.cleanAll hdispose
    · exact hinert.of_alters ((Alters.refl _).clean hdispose)
  rw [after, List.foldl_append]
  exact hcleaned.of_alters <| alters_after
    (fun s hs => hcounts s (List.mem_append_right _ (List.mem_cons_of_mem _ hs))) _

/-- **The life of a holder.** The registry of a holder has exactly the repositories that it is built
for. After any run the holder is live or inert. It is live as long as nobody lets go of all trackers:
the registry is the one that was built and no tracker has been disposed of. It is inert as soon as
somebody has: the registry is empty, and every tracker has been disposed of exactly once. While it is
live, a file reaches the tracker of the repository that the router names, which is one at most, and
letting go of all trackers disposes of each of them. While it is inert, no file reaches a tracker,
nothing is held, and a round of scans is the two announcements, calls no tracker and is done. -/
theorem live_until_cleanAll (hbuild : build make repositories = .ok holder)
    (hfresh : ∀ r t, make r = .ok t → disposals t = 0) (run : List (Tracking σ × Request))
    (hcounts : ∀ step ∈ run, step.1.Counts disposals) :
    let registry := holder.registry
    let now := holder.after run
    (∀ r, registry.contains r ↔ ∃ s ∈ repositories, s.same r) ∧
      (∀ r ∈ registry.repositories, r ∈ repositories) ∧
      (now.Live disposals registry ∨ now.Inert disposals) ∧
      now.trackers.length = registry.size ∧
      ((∀ step ∈ run, step.1.Stays ∧ step.2 ≠ .cleanAll) → now.Live disposals registry) ∧
      ((∃ step ∈ run, step.2 = .cleanAll) → now.Inert disposals) ∧
      (now.Live disposals registry → ∀ tracking : Tracking σ,
        (now.cleanAll tracking).trackers = now.trackers.map tracking.dispose ∧
          ∀ (place : Place) (router : Router) (file : Path),
            let spelled := place.normalize file
            (∀ e ∈ registry.entries, router.Names spelled e.1 →
              (∀ other ∈ registry.entries, router.Names spelled other.1 → other = e) ∧
                ∃ t, now.tracker? e.2 = some t ∧
                  now.addFile place router tracking file =
                    now.update e.2 (tracking.addFile spelled) ∧
                  now.containsFile place router tracking file =
                    ((tracking.containsFile spelled t).1,
                      now.update e.2 fun _ => (tracking.containsFile spelled t).2)) ∧
              ((∀ e ∈ registry.entries, ¬router.Names spelled e.1) →
                now.addFile place router tracking file = now ∧
                  now.containsFile place router tracking file = (false, now))) ∧
      (now.Inert disposals → ∀ tracking : Tracking σ,
        (now.repositories = [] ∧ now.values tracking = [] ∧ now.isBusy tracking = false ∧
          ∀ place router file, now.addFile place router tracking file = now ∧
            now.containsFile place router tracking file = (false, now)) ∧
          now.cleanAll tracking = now ∧
          ∀ react, ∃ startCalls finishCalls bus,
            now.startRescan tracking react =
              (⟨[.announced .started startCalls, .announced .finished finishCalls], .done⟩,
                { now with bus }) ∧
            bus.channel.sent = now.bus.channel.sent ++ [.started, .finished]) := by
  have hbuilt := built_of_build hbuild
  have hstart := live_of_build hbuild hfresh
  have halters := alters_after hcounts holder
  have hsize : holder.registry.size = holder.trackers.length := by
    have hlength := congrArg List.length hbuilt.numbered
    simpa [Registry.trackers, Registry.size] using hlength
  refine ⟨hbuilt.contains, hbuilt.listed, live_or_inert_of_alters hstart halters,
    halters.length_trackers.trans hsize.symm,
    fun hkept => hstart.of_alters halters (registry_after hkept holder),
    inert_after_of_cleanAll hstart hcounts, fun hlive tracking => ?_, fun hinert tracking => ?_⟩
  · refine ⟨hlive.trackers_cleanAll, fun place router file => ⟨fun e he hnames => ?_, fun hnone => ?_⟩⟩
    · obtain ⟨t, ht⟩ := hlive.mem_trackers_iff.mp (List.mem_map_of_mem he)
      have hreached := reached_of_names tracking (hlive.kept ▸ he) hnames ht
      exact ⟨fun other hother hnames' => Router.Names.unique hother he hnames' hnames, t, ht, hreached⟩
    · exact unreached_of_not_names (hlive.kept ▸ hnone)
  · exact ⟨silent_of_empty hinert.empty tracking, cleanAll_of_empty hinert.empty,
      startRescan_of_empty hinert.empty⟩

/-- A tracker that notes the paths it is told and how often it is disposed of. -/
structure Notebook where
  files : List Path := []
  disposed : Nat := 0

/-- Notebooks panic when they are to scan. -/
def notebooks : Tracking Notebook where
  isBusy _ := false
  entries notebook := notebook.files.map fun file => ⟨file, false⟩
  addFile file notebook := { notebook with files := notebook.files ++ [file] }
  containsFile file notebook := (notebook.files.contains file, notebook)
  rescan := Tracking.rescanAlone fun notebook => (.panicked "full", notebook)
  dispose notebook := { notebook with disposed := notebook.disposed + 1 }

theorem counts_notebooks : notebooks.Counts Notebook.disposed where
  addFile _ _ := rfl
  containsFile _ _ := rfl
  dispose _ := rfl
  rescan handle holder := alters_rescanAlone (fun _ => rfl) handle holder

/-- Two repositories: the third is the first one, spelled with a slash at its end. -/
def notedRepositories : List Repository :=
  [.ofRoot (.ofString "/n/a"), .ofRoot (.ofString "/n/b"), .ofRoot (.ofString "/n/a/")]

/-- Two rounds of scans, both of them panicking, and between them all notebooks are let go of. -/
theorem live_until_cleanAll_notebooks :
    ∃ holder : Holder Notebook,
      build (fun _ => .ok {}) notedRepositories = .ok holder ∧
        (∀ (_ : Repository) (t : Notebook), Except.ok (ε := Trouble) {} = .ok t → t.disposed = 0) ∧
        notebooks.Counts Notebook.disposed ∧
        holder.registry.size = 2 ∧
        (holder.after [(notebooks, .rescan fun _ _ => {})]).Live Notebook.disposed
          holder.registry ∧
        (holder.after [(notebooks, .rescan fun _ _ => {}), (notebooks, .cleanAll),
          (notebooks, .rescan fun _ _ => {}), (notebooks, .cleanAll)]).Inert Notebook.disposed := by
  obtain ⟨holder, hbuild⟩ : ∃ holder : Holder Notebook,
      build (fun _ => .ok {}) notedRepositories = .ok holder := exists_build fun _ _ => ⟨{}, rfl⟩
  have hfresh : ∀ (r : Repository) (t : Notebook),
      Except.ok (ε := Trouble) ({} : Notebook) = .ok t → t.disposed = 0 := by
    rintro _ _ ⟨⟩
    rfl
  refine ⟨holder, hbuild, hfresh, counts_notebooks, ?_, ?_, ?_⟩
  · have hsize : (build (fun _ => .ok ({} : Notebook)) notedRepositories).map (·.registry.size) =
        .ok 2 := by
      decide +kernel
    rw [hbuild] at hsize
    exact Except.ok.inj hsize
  · have hlife := live_until_cleanAll hbuild hfresh [(notebooks, .rescan fun _ _ => {})]
      (by simp [counts_notebooks])
    refine hlife.2.2.2.2.1 fun step hstep => ?_
    rw [List.mem_singleton.mp hstep]
    exact ⟨registry_rescanAlone _, nofun⟩
  · have hlife := live_until_cleanAll hbuild hfresh
      [(notebooks, .rescan fun _ _ => {}), (notebooks, .cleanAll),
        (notebooks, .rescan fun _ _ => {}), (notebooks, .cleanAll)]
      (by simp [counts_notebooks])
    exact hlife.2.2.2.2.2.1 ⟨(notebooks, .cleanAll), by simp, rfl⟩

end Life

end Holder

end IgnoreAtlas
