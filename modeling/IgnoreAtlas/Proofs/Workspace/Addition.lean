import IgnoreAtlas.Proofs.Workspace.Answers

/-!
# What adding a file does

Adding a file puts one path into the record of one tracker, or changes nothing at all
(`additions_after`). The path is the normal spelling of the file, and the tracker is that of the
repository that the file is resolved to. It takes the path if that is below its root.

The files that are ignored afterwards are those that were, and those of the same repository that are
at or below the added path; what is below it and in a repository inside is not among them. So a
second addition of the file changes nothing, and two additions can change places.

A file that is resolved to a repository but not taken by it is lost. That happens when its normal
spelling leads elsewhere when it is spelled normally once more (`lost_in_detourPlace`), and only to a
file through too many links.
-/

namespace IgnoreAtlas

/-! ## Records -/

namespace PathSet

variable {set : PathSet} {p q : Path}

theorem insert_insert_self : (set.insert p).insert p = set.insert p :=
  insert_of_contains (contains_insert.mpr (.inl rfl))

/-- Paths with one spelling each can be put in either order. -/
theorem perm_insert_insert (h : p.components = q.components → p = q) :
    ((set.insert p).insert q).paths.Perm ((set.insert q).insert p).paths := by
  by_cases hsame : p.components = q.components
  · rw [h hsame]
  · by_cases hp : set.contains p.components
    · have hpq : (set.insert q).contains p.components := contains_insert.mpr (.inr hp)
      rw [insert_of_contains hp, insert_of_contains hpq]
    · by_cases hq : set.contains q.components
      · have hqp : (set.insert p).contains q.components := contains_insert.mpr (.inr hq)
        rw [insert_of_contains hq, insert_of_contains hqp]
      · have hpq : ¬(set.insert q).contains p.components := by
          rw [contains_insert]
          exact fun hor => hor.elim (fun he => hsame he.symm) hp
        have hqp : ¬(set.insert p).contains q.components := by
          rw [contains_insert]
          exact fun hor => hor.elim hsame hq
        rw [paths_insert_of_not_contains hpq, paths_insert_of_not_contains hqp,
          paths_insert_of_not_contains hp, paths_insert_of_not_contains hq, List.append_assoc,
          List.append_assoc]
        exact (List.Perm.swap q p []).append_left set.paths

end PathSet

/-! ## One tracker -/

namespace Tracker

variable {tracker : Tracker} {p q : Path}

/-- The path is below the root. -/
def Takes (tracker : Tracker) (p : Path) : Prop :=
  p.startsWith tracker.root ∧ ¬p.same tracker.root

/-- The tracker with one more path. -/
def record (p : Path) (tracker : Tracker) : Tracker :=
  { tracker with recorded := tracker.recorded.insert p }

theorem addFile_of_takes (hp : p.isAbsolute) (h : tracker.Takes p) :
    tracker.addFile p = tracker.record p := by
  have habsolute : tracker.absolute p = p := if_pos hp
  rw [addFile, habsolute, h.1, Bool.eq_false_iff.mpr h.2]
  rfl

theorem addFile_of_not_takes (hp : p.isAbsolute) (h : ¬tracker.Takes p) :
    tracker.addFile p = tracker := by
  have habsolute : tracker.absolute p = p := if_pos hp
  rw [addFile, habsolute]
  refine if_neg fun hin => h ?_
  rw [Bool.and_eq_true, Bool.not_eq_true', Bool.eq_false_iff] at hin
  exact hin

theorem takes_addFile (hp : p.isAbsolute) : (tracker.addFile p).Takes q ↔ tracker.Takes q := by
  by_cases h : tracker.Takes p
  · rw [addFile_of_takes hp h]
    rfl
  · rw [addFile_of_not_takes hp h]

theorem addFile_addFile (hp : p.isAbsolute) :
    (tracker.addFile p).addFile p = tracker.addFile p := by
  by_cases h : tracker.Takes p
  · rw [addFile_of_takes hp ((takes_addFile hp).mpr h), addFile_of_takes hp h, record, record,
      PathSet.insert_insert_self]
  · rw [addFile_of_not_takes hp h, addFile_of_not_takes hp h]

/-- A path that is recorded is ignored from now on, with all that is below it. -/
theorem containsFile_record (hroot : tracker.root.isAbsolute) (hq : q.isAbsolute)
    (h : tracker.Takes p) :
    (tracker.record p).containsFile q ↔ tracker.containsFile q ∨ q.startsWith p := by
  have hbefore : tracker.absolute q = q := if_pos hq
  have hafter : (tracker.record p).absolute q = q := if_pos hq
  rw [containsFile, containsFile, hbefore, hafter, PathSet.holdsBelow_ancestors hroot hq]
  change (tracker.recorded.insert p).holdsBelow tracker.root q.ancestors ↔ _
  rw [PathSet.holdsBelow_ancestors hroot hq]
  constructor
  · rintro ⟨c, hbelow, habove, hc⟩
    rcases PathSet.contains_insert.mp hc with rfl | hc
    · exact .inr (Path.startsWith_iff.mpr habove)
    · exact .inl ⟨c, hbelow, habove, hc⟩
  · rintro (⟨c, hbelow, habove, hc⟩ | habove)
    · exact ⟨c, hbelow, habove, PathSet.contains_insert.mpr (.inr hc)⟩
    · exact ⟨p.components, Path.startsWith_iff.mp h.1, Path.startsWith_iff.mp habove,
        PathSet.contains_insert.mpr (.inl rfl)⟩

/-- The two record the same paths. -/
structure Alike (a b : Tracker) : Prop where
  root : a.root = b.root
  settings : a.settings = b.settings
  busy : a.busy = b.busy
  recorded : a.recorded.paths.Perm b.recorded.paths

theorem Alike.refl (tracker : Tracker) : tracker.Alike tracker := ⟨rfl, rfl, rfl, .refl _⟩

theorem alike_addFile_addFile (hp : p.isAbsolute) (hq : q.isAbsolute)
    (h : p.components = q.components → p = q) :
    ((tracker.addFile p).addFile q).Alike ((tracker.addFile q).addFile p) := by
  by_cases htp : tracker.Takes p
  · by_cases htq : tracker.Takes q
    · rw [addFile_of_takes hq ((takes_addFile hp).mpr htq),
        addFile_of_takes hp ((takes_addFile hq).mpr htp), addFile_of_takes hp htp,
        addFile_of_takes hq htq]
      exact ⟨rfl, rfl, rfl, PathSet.perm_insert_insert h⟩
    · rw [addFile_of_not_takes hq htq,
        addFile_of_not_takes hq (mt (takes_addFile hp).mp htq)]
      exact .refl _
  · rw [addFile_of_not_takes hp htp, addFile_of_not_takes hp (mt (takes_addFile hq).mp htp)]
    exact .refl _

end Tracker

namespace Place

/-- A normal spelling that is absolute is the path of a location. -/
theorem exists_normalize_eq_ofLocation {place : Place} {p : Path}
    (h : (place.normalize p).isAbsolute) : ∃ location, place.normalize p = .ofLocation location := by
  rw [isAbsolute_normalize] at h
  cases hresolve : place.files.resolve place.cwd (place.absolute p) with
  | ok found => exact ⟨found, normalize_eq_of_ok hresolve⟩
  | error fault => exact ⟨_, normalize_eq_of_error hresolve h⟩

end Place

namespace Workspace

variable {set : RepositorySet} {settings : TrackerSettings} {workspace : Workspace}
  {place view : Place} {file other : Path} {r : Repository}

/-! ## The tracker that is changed -/

/-- The file is resolved to the repository, and its path is below the root. -/
structure Takes (workspace : Workspace) (place : Place) (file : Path) (r : Repository) : Prop where
  owner : workspace.ownerOf? place file = some r
  around : (place.normalize file).startsWith r.root
  below : ¬(place.normalize file).same r.root

theorem perform_add_eq (workspace : Workspace) (place : Place) (file : Path) :
    workspace.perform place (.add file) =
      match Holder.locate? place (workspace.repositories.router place) workspace.holder file with
      | some (handle, p) =>
        { workspace with holder := workspace.holder.update handle (Tracker.addFile · p) }
      | none => workspace := by
  rw [perform, Holder.addFile]
  cases Holder.locate? place (workspace.repositories.router place) workspace.holder file with
  | none => rfl
  | some found => rfl

/-- Adding a file changes no routing. -/
theorem locate?_perform_add (workspace : Workspace) (place : Place) (file other : Path) :
    Holder.locate? place ((workspace.perform place (.add file)).repositories.router place)
        (workspace.perform place (.add file)).holder other =
      Holder.locate? place (workspace.repositories.router place) workspace.holder other := by
  rw [perform_add_eq]
  split <;> rfl

theorem Fits.perform_add_of_takes (h : workspace.Fits set settings)
    (hspelled : ∀ r ∈ set.roots, ∃ names, r = .ofLocation names)
    (htakes : workspace.Takes place file r) :
    ∃ handle, (r, handle) ∈ workspace.holder.registry.entries ∧
      workspace.perform place (.add file) =
        { workspace with
          holder := workspace.holder.update handle (Tracker.record (place.normalize file)) } := by
  obtain ⟨hr, hroot⟩ := h.ownerOf?_eq_some_iff.mp htakes.owner
  obtain ⟨e, he, rfl⟩ := List.mem_map.mp hr
  refine ⟨e.2, he, ?_⟩
  rcases h.perform_add place file with ⟨e', he', hroot', hperform⟩ | ⟨hnone, -⟩
  · have hsame : e' = e := Registry.eq_of_components_eq he' he (by
      rw [Option.some.inj (hroot'.symm.trans hroot)])
    subst hsame
    rw [hperform]
    have hadd : workspace.holder.update e'.2 (Tracker.addFile · (place.normalize file)) =
        workspace.holder.update e'.2 (Tracker.record (place.normalize file)) := by
      refine Holder.update_congr fun t ht => ?_
      obtain ⟨t', ht', hserves, -⟩ := h.serves e' he
      obtain rfl : t = t' := Option.some.inj (ht.symm.trans ht')
      refine Tracker.addFile_of_takes (isAbsolute_of_rootOf? hspelled hroot) ?_
      rw [Tracker.Takes, hserves]
      exact ⟨htakes.around, htakes.below⟩
    rw [hadd]
  · exact absurd hroot (hnone e he)

theorem Fits.perform_add_of_not_takes (h : workspace.Fits set settings)
    (hspelled : ∀ r ∈ set.roots, ∃ names, r = .ofLocation names)
    (htakes : ∀ r, ¬workspace.Takes place file r) :
    workspace.perform place (.add file) = workspace := by
  rcases h.perform_add place file with ⟨e, he, hroot, hperform⟩ | ⟨-, hperform⟩
  · rw [hperform]
    have howner := h.ownerOf?_eq_some_iff.mpr ⟨List.mem_map_of_mem he, hroot⟩
    have hself : workspace.holder.update e.2 (Tracker.addFile · (place.normalize file)) =
        workspace.holder := by
      refine Holder.update_self fun t ht => ?_
      obtain ⟨t', ht', hserves, -⟩ := h.serves e he
      obtain rfl : t = t' := Option.some.inj (ht.symm.trans ht')
      refine Tracker.addFile_of_not_takes (isAbsolute_of_rootOf? hspelled hroot) ?_
      rw [Tracker.Takes, hserves]
      exact fun hin => htakes e.1 ⟨howner, hin.1, hin.2⟩
    rw [hself]
  · exact hperform

/-- The tracker with this handle says that a file is ignored, or another one does. -/
theorem Fits.ignores_iff_or (h : workspace.Fits set settings) {e : Repository × Handle}
    (he : e ∈ workspace.holder.registry.entries) {t : Tracker}
    (ht : workspace.holder.tracker? e.2 = some t) :
    workspace.ignores place file ↔
      (set.rootOf? place (place.normalize file) = some e.1.root ∧
        t.containsFile (place.normalize file)) ∨
      ∃ e' ∈ workspace.holder.registry.entries, e'.2 ≠ e.2 ∧
        set.rootOf? place (place.normalize file) = some e'.1.root ∧
          ∃ t', workspace.holder.tracker? e'.2 = some t' ∧ t'.containsFile (place.normalize file) := by
  rw [h.ignores_iff_containsFile]
  constructor
  · rintro ⟨e', he', hroot, t', ht', hasked⟩
    by_cases hhandle : e'.2 = e.2
    · obtain rfl := h.eq_of_handle_eq he' he hhandle
      obtain rfl : t' = t := Option.some.inj (ht'.symm.trans ht)
      exact .inl ⟨hroot, hasked⟩
    · exact .inr ⟨e', he', hhandle, hroot, t', ht', hasked⟩
  · rintro (⟨hroot, hasked⟩ | ⟨e', he', -, hasked⟩)
    · exact ⟨e, he, hroot, t, ht, hasked⟩
    · exact ⟨e', he', hasked⟩

/-- Of a repository's files those at or below an added path become ignored, and no others, wherever
they are asked for. -/
theorem Fits.ignores_perform_add (h : workspace.Fits set settings)
    (hspelled : ∀ r ∈ set.roots, ∃ names, r = .ofLocation names) :
    (workspace.perform place (.add file)).ignores view other ↔
      workspace.ignores view other ∨
        ∃ r, workspace.Takes place file r ∧ workspace.ownerOf? view other = some r ∧
          (view.normalize other).startsWith (place.normalize file) := by
  by_cases htakes : ∃ r, workspace.Takes place file r
  · obtain ⟨r, htakes⟩ := htakes
    obtain ⟨handle, he, hperform⟩ := h.perform_add_of_takes hspelled htakes
    obtain ⟨t, ht, hserves, -⟩ := h.serves _ he
    have hnext := h.perform place (.add file)
    rw [hperform] at hnext ⊢
    have htracker : (workspace.holder.update handle
        (Tracker.record (place.normalize file))).tracker? handle =
          some (t.record (place.normalize file)) := by
      rw [Holder.tracker?_update, if_pos rfl, ht, Option.map_some]
    -- Only the tracker that takes the file answers in another way, and only below the added path.
    have hrecord (hroot : set.rootOf? view (view.normalize other) = some r.root) :
        (t.record (place.normalize file)).containsFile (view.normalize other) ↔
          t.containsFile (view.normalize other) ∨
            (view.normalize other).startsWith (place.normalize file) := by
      obtain ⟨names, hnames⟩ := hspelled _ (List.mem_map_of_mem (h.mem_repositories he))
      refine Tracker.containsFile_record ?_ (isAbsolute_of_rootOf? hspelled hroot) ?_
      · rw [hserves, hnames]
        exact Path.isAbsolute_ofLocation names
      · rw [Tracker.Takes, hserves]
        exact ⟨htakes.around, htakes.below⟩
    have hothers (e' : Repository × Handle) (hne : e'.2 ≠ handle) :
        (workspace.holder.update handle (Tracker.record (place.normalize file))).tracker? e'.2 =
          workspace.holder.tracker? e'.2 := by
      rw [Holder.tracker?_update, if_neg (Ne.symm hne)]
    have howner : (∃ r', workspace.Takes place file r' ∧ workspace.ownerOf? view other = some r' ∧
        (view.normalize other).startsWith (place.normalize file)) ↔
          set.rootOf? view (view.normalize other) = some r.root ∧
            (view.normalize other).startsWith (place.normalize file) := by
      constructor
      · rintro ⟨r', htakes', hown, habove⟩
        obtain rfl : r' = r := Option.some.inj (htakes'.owner.symm.trans htakes.owner)
        exact ⟨(h.ownerOf?_eq_some_iff.mp hown).2, habove⟩
      · rintro ⟨hroot, habove⟩
        exact ⟨r, htakes, h.ownerOf?_eq_some_iff.mpr ⟨List.mem_map_of_mem he, hroot⟩, habove⟩
    rw [hnext.ignores_iff_or he htracker, h.ignores_iff_or he ht, howner, or_right_comm, ← and_or_left]
    refine or_congr (and_congr_right hrecord) ?_
    refine exists_congr fun e' => and_congr_right fun _ => and_congr_right fun hne => ?_
    rw [hothers e' hne]
  · rw [h.perform_add_of_not_takes hspelled fun r hr => htakes ⟨r, hr⟩]
    refine ⟨.inl, fun hor => hor.resolve_right ?_⟩
    rintro ⟨r, hr, -⟩
    exact htakes ⟨r, hr⟩

/-! ## Two additions -/

/-- The two are the same but for the order in which their trackers record paths. -/
structure Alike (a b : Workspace) : Prop where
  repositories : a.repositories = b.repositories
  registry : a.holder.registry = b.holder.registry
  bus : a.holder.bus = b.holder.bus
  trackers : ∀ handle, Option.Rel Tracker.Alike (a.holder.tracker? handle) (b.holder.tracker? handle)

theorem Alike.refl (workspace : Workspace) : workspace.Alike workspace := by
  refine ⟨rfl, rfl, rfl, fun handle => ?_⟩
  cases workspace.holder.tracker? handle with
  | none => exact .none
  | some t => exact .some (.refl t)

/-- Two changes that can change places on each tracker can do so on a holder. -/
theorem alike_update_update {holder : Holder Tracker} {first second : Handle}
    {change other : Tracker → Tracker}
    (h : ∀ t : Tracker, (other (change t)).Alike (change (other t))) (handle : Handle) :
    Option.Rel Tracker.Alike
      (((holder.update first change).update second other).tracker? handle)
      (((holder.update second other).update first change).tracker? handle) := by
  simp only [Holder.tracker?_update]
  cases holder.tracker? handle with
  | none => simp
  | some t =>
    by_cases hfirst : first = handle
    · by_cases hsecond : second = handle
      · simpa [hfirst, hsecond] using h t
      · simpa [hfirst, hsecond] using Tracker.Alike.refl _
    · by_cases hsecond : second = handle
      · simpa [hfirst, hsecond] using Tracker.Alike.refl _
      · simpa [hfirst, hsecond] using Tracker.Alike.refl _

theorem Fits.alike_perform_add (h : workspace.Fits set settings)
    (hspelled : ∀ r ∈ set.roots, ∃ names, r = .ofLocation names) :
    ((workspace.perform place (.add file)).perform place (.add other)).Alike
      ((workspace.perform place (.add other)).perform place (.add file)) := by
  rw [perform_add_eq (workspace.perform place (.add file)), locate?_perform_add,
    perform_add_eq (workspace.perform place (.add other)), locate?_perform_add,
    perform_add_eq workspace place file, perform_add_eq workspace place other]
  cases hfile : Holder.locate? place (workspace.repositories.router place) workspace.holder file with
  | none =>
    cases Holder.locate? place (workspace.repositories.router place) workspace.holder other with
    | none => exact .refl _
    | some found => exact .refl _
  | some found =>
    obtain ⟨first, p⟩ := found
    cases hother : Holder.locate? place (workspace.repositories.router place) workspace.holder
        other with
    | none => exact .refl _
    | some found =>
      obtain ⟨second, q⟩ := found
      obtain ⟨rfl, e, he, -, hroot⟩ := h.locate?_eq_some_iff.mp hfile
      obtain ⟨rfl, e', he', -, hroot'⟩ := h.locate?_eq_some_iff.mp hother
      have hp := isAbsolute_of_rootOf? hspelled hroot
      have hq := isAbsolute_of_rootOf? hspelled hroot'
      obtain ⟨a, ha⟩ := Place.exists_normalize_eq_ofLocation hp
      obtain ⟨b, hb⟩ := Place.exists_normalize_eq_ofLocation hq
      refine ⟨rfl, rfl, rfl, alike_update_update fun t => ?_⟩
      refine Tracker.alike_addFile_addFile hp hq ?_
      rw [ha, hb, Path.components_ofLocation_inj]
      exact congrArg _

/-- A file that is there already is not added once more. -/
theorem Fits.perform_add_perform_add (h : workspace.Fits set settings)
    (hspelled : ∀ r ∈ set.roots, ∃ names, r = .ofLocation names) :
    (workspace.perform place (.add file)).perform place (.add file) =
      workspace.perform place (.add file) := by
  rw [perform_add_eq (workspace.perform place (.add file)), locate?_perform_add,
    perform_add_eq workspace place file]
  cases hlocate : Holder.locate? place (workspace.repositories.router place) workspace.holder
      file with
  | none => rfl
  | some found =>
    obtain ⟨handle, p⟩ := found
    obtain ⟨rfl, e, -, -, hroot⟩ := h.locate?_eq_some_iff.mp hlocate
    have hp := isAbsolute_of_rootOf? hspelled hroot
    let once := workspace.holder.update handle (Tracker.addFile · (place.normalize file))
    have hself : once.update handle (Tracker.addFile · (place.normalize file)) = once := by
      refine Holder.update_self fun t ht => ?_
      rw [Holder.tracker?_update, if_pos rfl, Option.map_eq_some_iff] at ht
      obtain ⟨before, -, rfl⟩ := ht
      exact Tracker.addFile_addFile hp
    exact congrArg (fun holder => { workspace with holder }) hself

/-! ## The effect of an addition -/

/-- What adding a file does, in every state that an opened workspace comes to and in whatever place.
If a repository takes the file, its tracker records one more path, and that is all; if none does,
nothing changes. A file is ignored afterwards when it was before, or when it belongs to the
repository that takes the added one and is at or below that. Adding the file once more changes
nothing, and two additions can change places. A repository takes every file that is resolved to it
but the root itself, as long as the normal spelling of the file stays; and that stays unless the
file gives up. -/
theorem additions_after {opened : Settings} {starts : List Path}
    (hopen : openAt place opened starts = .ok workspace) (run : List (Place × Request))
    (view : Place) (file : Path) :
    let now := workspace.after run
    let next := now.perform view (.add file)
    (∀ r, now.Takes view file r → ∃ handle, (r, handle) ∈ now.holder.registry.entries ∧
      next = { now with
        holder := now.holder.update handle (Tracker.record (view.normalize file)) }) ∧
    ((∀ r, ¬now.Takes view file r) → next = now) ∧
    (∀ other, next.ignores view other ↔ now.ignores view other ∨
      ∃ r, now.Takes view file r ∧ now.ownerOf? view other = some r ∧
        (view.normalize other).startsWith (view.normalize file)) ∧
    next.perform view (.add file) = next ∧
    (∀ other, (next.perform view (.add other)).Alike
      ((now.perform view (.add other)).perform view (.add file))) ∧
    (view.normalize (view.normalize file) = view.normalize file →
      ∀ r, now.Takes view file r ↔
        now.ownerOf? view file = some r ∧ ¬(view.normalize file).same r.root) ∧
    (¬view.GivesUp file → view.normalize (view.normalize file) = view.normalize file) := by
  have hnow := (fits_of_openAt hopen).after run
  have hspelled : ∀ r ∈ (Discovery.discover place opened.discovery starts).roots,
      ∃ names, r = .ofLocation names := fun _ => Discovery.exists_path_of_mem_roots
  refine ⟨?_, ?_, ?_, ?_, ?_, ?_, Place.normalize_normalize⟩
  · intro r htakes
    exact hnow.perform_add_of_takes hspelled htakes
  · intro htakes
    exact hnow.perform_add_of_not_takes hspelled htakes
  · intro other
    exact hnow.ignores_perform_add hspelled
  · exact hnow.perform_add_perform_add hspelled
  · intro other
    exact hnow.alike_perform_add hspelled
  · intro hstays r
    refine ⟨fun htakes => ⟨htakes.owner, htakes.below⟩, fun ⟨howner, hbelow⟩ => ⟨howner, ?_, hbelow⟩⟩
    obtain ⟨-, hroot⟩ := hnow.ownerOf?_eq_some_iff.mp howner
    obtain ⟨-, haround, -⟩ := RepositorySet.deepest?_eq_some_iff.mp hroot
    rw [hstays] at haround
    exact haround

/-- Two repositories, `/m/near` and `/m/far`. In the second one the link `loop` leads to the directory
that holds it, and the link `away` ten times through `loop` and then out to `/m/near/y`. -/
def detourPlace : Place where
  files :=
    { top := .dir (.spell "m")
        (.dir (.spell "far")
          (.dir .git gitListing <| .link (.spell "loop") (.ofString ".") <|
            .link (.spell "away")
              (.ofString "loop/loop/loop/loop/loop/loop/loop/loop/loop/loop/../near/y") .empty) <|
          .dir (.spell "near")
            (.dir .git gitListing <| .file (.spell "y") (.literal []) .empty) .empty) .empty
      distinct := by decide +kernel }
  cwd := []
  home := .ofString "/home"

/-- The link `away`, after going thirty-five times through `loop`. -/
def detourFile : Path :=
  (Path.ofString "/m/far").descend (List.replicate 35 (.spell "loop") ++ [.spell "away"])

def detourSettings : Settings := .default (.ofString "/home")

def detourSet : RepositorySet where
  repositories := [.ofRoot (.ofString "/m/far"), .ofRoot (.ofString "/m/near")]
  sorted := by decide +kernel

theorem discover_detourPlace :
    Discovery.discover detourPlace detourSettings.discovery [.ofString "/m"] = detourSet :=
  Discovery.discover_eq (by decide +kernel)

/-- Both files there are resolved to the second repository. -/
theorem ownerOf?_detourPlace {workspace : Workspace}
    (hopen : openAt detourPlace detourSettings [.ofString "/m"] = .ok workspace) :
    ∀ file ∈ [detourFile, .ofString "/m/near/y", .ofString "/m/near/./y"],
      workspace.ownerOf? detourPlace file = some (.ofRoot (.ofString "/m/near")) := by
  have hrepositories : workspace.holder.repositories = detourSet.repositories :=
    (repositories_after hopen [] nofun).trans (congrArg _ discover_detourPlace)
  have hfits := fits_of_openAt hopen
  rw [discover_detourPlace] at hfits
  intro file hfile
  rw [hfits.ownerOf?_eq_some_iff, hrepositories]
  revert file
  decide +kernel

/-- A file that is added to its repository is ignored, however it is spelled. -/
theorem additions_after_detourPlace :
    ∃ workspace, openAt detourPlace detourSettings [.ofString "/m"] = .ok workspace ∧
      (workspace.perform detourPlace (.add (.ofString "/m/near/y"))).ignores detourPlace
        (.ofString "/m/near/./y") := by
  obtain ⟨workspace, hopen⟩ := exists_openAt detourPlace detourSettings [.ofString "/m"]
  have howner := ownerOf?_detourPlace hopen
  obtain ⟨-, -, hignores, -⟩ := additions_after hopen [] detourPlace (.ofString "/m/near/y")
  refine ⟨workspace, hopen, (hignores _).mpr (.inr ⟨_, ⟨howner _ (by simp), ?_, ?_⟩,
    howner _ (by simp), ?_⟩)⟩
  · decide +kernel
  · decide +kernel
  · decide +kernel

/-- A file through too many links is resolved to one repository and spelled as a path of another. It
is not ignored when it has been added. -/
theorem lost_in_detourPlace :
    ∃ workspace, openAt detourPlace detourSettings [.ofString "/m"] = .ok workspace ∧
      ∃ r, workspace.ownerOf? detourPlace detourFile = some r ∧
        ¬(detourPlace.normalize detourFile).same r.root ∧
        ¬(workspace.perform detourPlace (.add detourFile)).ignores detourPlace detourFile := by
  have hresult : (ofRepositories detourPlace detourSettings.tracker detourSet).toOption.any
      fun workspace =>
        !(workspace.perform detourPlace (.add detourFile)).ignores detourPlace detourFile := by
    decide +kernel
  obtain ⟨workspace, hopen⟩ := exists_openAt detourPlace detourSettings [.ofString "/m"]
  refine ⟨workspace, hopen, _, ownerOf?_detourPlace hopen _ List.mem_cons_self, ?_, ?_⟩
  · decide +kernel
  · rw [openAt, discover_detourPlace] at hopen
    rw [hopen] at hresult
    rw [Bool.not_eq_true]
    exact (Bool.not_eq_true' _).mp hresult

end Workspace

end IgnoreAtlas
