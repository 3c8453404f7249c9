import IgnoreAtlas.Proofs.Tracker.Walk
import IgnoreAtlas.Tracker.Basic
import Mathlib.Data.List.Nodup

/-!
# What a scan records

The record of a scan is computed from two walks and a search in the record itself. What comes out
has a description of its own: the topmost of the ignored entries (`Topmost`), where an entry counts
when no other repository stands between it and the root (`Scanned`). The rules of `ignoresAt` are
those of the directories above the entry, and so a rule inside an ignored directory decides nothing.
They count in a repository, be it one that begins around the root (`inRepository_rulesAt_iff`).

The steps are: the walk without rules comes to the scanned entries (`mem_reached_heeding_false`); the
walk with rules comes to those that are not at or below an ignored one (`mem_reached_iff_scanned`);
going through the first, a scan records those that are not among the second while everything above
them is (`noted_foldl`).
-/

namespace IgnoreAtlas

/-- A location is enclosed when a directory strictly above it holds something named `.git` or `.jj`. -/
theorem Place.isEnclosed_iff {place : Place} {location : Location} :
    place.isEnclosed location ↔ ∃ above, above <+: location ∧ above ≠ location ∧
      (place.exists? ((Path.ofLocation above).child .git) ∨
        place.exists? ((Path.ofLocation above).child .jj)) := by
  simp only [isEnclosed, List.any_eq_true, List.mem_range, Bool.or_eq_true]
  constructor
  · rintro ⟨depth, hdepth, hthere⟩
    refine ⟨location.take depth, List.take_prefix depth location, ?_, hthere⟩
    intro heq
    have hlength := congrArg List.length heq
    rw [List.length_take] at hlength
    omega
  · rintro ⟨above, habove, hne, hthere⟩
    refine ⟨above.length, ?_, ?_⟩
    · apply Nat.lt_of_le_of_ne habove.length_le
      intro hlength
      exact hne (habove.eq_of_length hlength)
    · rw [← List.prefix_iff_eq_take.mp habove]
      exact hthere

end IgnoreAtlas

namespace IgnoreAtlas.Scan.Job

variable {job : Job} {names : List Name}

/-! ## Where the rules count -/

/-- The rules for the entries of a directory count when a repository begins at the directory or above
it up to the root, or around the root where the files `.gitignore` are read. -/
theorem inRepository_rulesAt_iff {dir : List Name} :
    (job.rulesAt dir).inRepository ↔
      (∃ above, above <+: dir ∧ (job.frameAt above).boundary) ∨
        job.settings.gitIgnore ∧ job.place.isEnclosed job.location := by
  have hframes : (job.rulesAt dir).frames.any Frame.boundary ↔
      ∃ above, above <+: dir ∧ (job.frameAt above).boundary := by
    simp [rulesAt]
  have henclosed : (job.rulesAt dir).enclosed =
      (job.settings.gitIgnore && job.place.isEnclosed job.location) := rfl
  rw [Chain.inRepository, Bool.or_eq_true, hframes, henclosed, Bool.and_eq_true]

/-- Where no rules are read no directory is a boundary. -/
theorem boundary_frameAt (h : Chain.active job.settings = false) :
    ∀ dir, (job.frameAt dir).boundary = false
  | [] => by simp [frameAt, Chain.rootFrame, Chain.frameOf, h]
  | _ :: _ => by simp [frameAt, Chain.frameOf, h]

/-- Where no rules are read none count. -/
theorem inRepository_of_inactive (h : Chain.active job.settings = false) (dir : List Name) :
    (job.rulesAt dir).inRepository = false := by
  rw [Bool.eq_false_iff, ne_eq, inRepository_rulesAt_iff]
  rintro (⟨above, -, hboundary⟩ | ⟨hread, -⟩)
  · rw [boundary_frameAt h] at hboundary
    cases hboundary
  · rw [Chain.active, hread, Bool.true_or] at h
    cases h

/-- Where no rules are read nothing is ignored. -/
theorem ignoresAt_of_inactive (h : Chain.active job.settings = false) :
    job.ignoresAt names = false := by
  simp [ignoresAt, ignores, Chain.ignores, Chain.verdict?, inRepository_of_inactive h]

/-! ## The scanned entries -/

/-- The entry is reached through real directories, no name on the way is `.git`, and neither the
entry nor a directory on the way below the root holds something of that name. -/
structure Scanned (job : Job) (names : List Name) : Prop where
  below : names ≠ []
  present : (job.inside.entry? names).isSome
  unnamed : Name.git ∉ names
  bare : ∀ part, part ≠ [] → part <+: names →
    job.place.exists? ((job.path part).child .git) = false

/-- Nothing on the way is left to others: no name is `.git`, and nothing holds one. -/
theorem leavesOut_eq_false_iff :
    (∀ part, part ≠ [] → part <+: names → job.leavesOut part = false) ↔
      Name.git ∉ names ∧ ∀ part, part ≠ [] → part <+: names →
        job.place.exists? ((job.path part).child .git) = false := by
  simp only [leavesOut, Bool.or_eq_false_iff, beq_eq_false_iff_ne]
  constructor
  · intro h
    refine ⟨fun hgit => ?_, fun part hne hpart => (h part hne hpart).2⟩
    obtain ⟨front, back, rfl⟩ := List.append_of_mem hgit
    exact (h (front ++ [.git]) (by simp) ⟨back, by simp⟩).1 List.getLast?_concat
  · rintro ⟨hgit, hbare⟩ part hne hpart
    exact ⟨fun hlast => hgit (hpart.subset (List.mem_of_getLast? hlast)), hbare part hne hpart⟩

/-- The walk without rules comes to the root and to the scanned entries. -/
theorem mem_reached_heeding_false :
    names ∈ (job.heeding false).reached ↔ names = [] ∨ job.Scanned names := by
  have hskip (part : List Name) : (job.heeding false).skipsAt part = job.leavesOut part := by
    rw [skipsAt, ignoresAt_of_inactive rfl, Bool.false_or]
    rfl
  rw [mem_reached_iff]
  simp only [hskip, leavesOut_eq_false_iff]
  constructor
  · rintro ⟨hpresent, hgit, hbare⟩
    by_cases hne : names = []
    · exact .inl hne
    · exact .inr ⟨hne, hpresent, hgit, hbare⟩
  · rintro (rfl | h)
    · exact ⟨rfl, List.not_mem_nil, fun part hne hpart => absurd (List.prefix_nil.mp hpart) hne⟩
    · exact ⟨h.present, h.unnamed, h.bare⟩

/-- What is above a scanned entry, below the root, is scanned. -/
theorem Scanned.of_prefix {part : List Name} (h : job.Scanned names) (hne : part ≠ [])
    (hp : part <+: names) : job.Scanned part := by
  have hmem := mem_reached_of_prefix (mem_reached_heeding_false.mpr (.inr h)) hp
  exact (mem_reached_heeding_false.mp hmem).resolve_left hne

/-- Of the scanned entries the walk with rules comes to those that are not ignored and have nothing
ignored above them. -/
theorem mem_reached_iff_scanned :
    names ∈ job.reached ↔
      names = [] ∨ job.Scanned names ∧
        ∀ part, part ≠ [] → part <+: names → job.ignoresAt part = false := by
  have hsplit : (∀ part, part ≠ [] → part <+: names → job.skipsAt part = false) ↔
      (∀ part, part ≠ [] → part <+: names → job.ignoresAt part = false) ∧
        ∀ part, part ≠ [] → part <+: names → job.leavesOut part = false := by
    simp only [skipsAt, Bool.or_eq_false_iff]
    exact ⟨fun h => ⟨fun p hne hp => (h p hne hp).1, fun p hne hp => (h p hne hp).2⟩,
      fun h p hne hp => ⟨h.1 p hne hp, h.2 p hne hp⟩⟩
  rw [mem_reached_iff, hsplit, leavesOut_eq_false_iff]
  constructor
  · rintro ⟨hpresent, hfree, hgit, hbare⟩
    by_cases hne : names = []
    · exact .inl hne
    · exact .inr ⟨⟨hne, hpresent, hgit, hbare⟩, hfree⟩
  · rintro (rfl | ⟨h, hfree⟩)
    · exact ⟨rfl, fun part hne hpart => absurd (List.prefix_nil.mp hpart) hne, List.not_mem_nil,
        fun part hne hpart => absurd (List.prefix_nil.mp hpart) hne⟩
    · exact ⟨h.present, hfree, h.unnamed, h.bare⟩

/-! ## Recording one entry after the other -/

/-- The entry is not in the set, and everything above it is. -/
def FirstOutside (job : Job) (visible : PathSet) (names : List Name) : Prop :=
  visible.contains (job.path names).components = false ∧
    ∀ part, part <+: names → part ≠ names → visible.contains (job.path part).components

/-- Of what holds on the way to an entry, or there, there is a first. -/
theorem exists_first_prefix {p : List Name → Prop} (h : p names) :
    ∃ part, part <+: names ∧ p part ∧ ∀ q, q <+: part → q ≠ part → ¬p q := by
  induction hlen : names.length using Nat.strong_induction_on generalizing names with
  | _ length ih =>
    by_cases habove : ∀ part, part <+: names → part ≠ names → ¬p part
    · exact ⟨names, List.prefix_rfl, h, habove⟩
    · push Not at habove
      obtain ⟨part, hpart, hne, hp⟩ := habove
      have hshort : part.length < length :=
        hlen ▸ Nat.lt_of_le_of_ne hpart.length_le fun he => hne (hpart.eq_of_length he)
      obtain ⟨first, hfirst, hfree⟩ := ih _ hshort hp rfl
      exact ⟨first, hfirst.trans hpart, hfree⟩

/-- Above what is not in the set, or there, something is the first outside. -/
theorem exists_firstOutside {visible : PathSet}
    (h : visible.contains (job.path names).components = false) :
    ∃ part, part <+: names ∧ job.FirstOutside visible part := by
  obtain ⟨part, hpart, hout, hfree⟩ :=
    exists_first_prefix (p := fun q => visible.contains (job.path q).components = false) h
  refine ⟨part, hpart, hout, fun q hq hne => ?_⟩
  rw [← Bool.not_eq_false]
  exact hfree q hq hne

/-- The set holds what is first outside among these entries, and nothing else. -/
def Noted (job : Job) (visible : PathSet) (before : List (List Name)) (set : PathSet) : Prop :=
  ∀ c, set.contains c ↔
    ∃ part ∈ before, job.FirstOutside visible part ∧ c = (job.path part).components

section Noted

variable {visible set : PathSet} {before : List (List Name)}

/-- The set holds something above an entry when something above the entry is first outside. -/
theorem Noted.holdsBelow_iff (h : job.Noted visible before set) (hroot : job.root.isAbsolute)
    (habove : ∀ part, part <+: names → part ≠ names → part ∈ before) :
    set.holdsBelow job.root ((job.path names).ancestors.drop 1) ↔
      ∃ part, part <+: names ∧ part ≠ names ∧ job.FirstOutside visible part := by
  rw [PathSet.holdsBelow_drop_ancestors fun _ => hroot]
  constructor
  · rintro ⟨c, -, hc, hne, hs⟩
    obtain ⟨part, -, hfirst, rfl⟩ := (h c).mp hs
    refine ⟨part, (Path.components_descend_prefix hroot).mp hc, fun heq => hne ?_, hfirst⟩
    rw [heq]
  · rintro ⟨part, hpart, hne, hfirst⟩
    refine ⟨(job.path part).components, Path.prefix_components_descend hroot part,
      (Path.components_descend_prefix hroot).mpr hpart, fun heq => hne ?_,
      (h _).mpr ⟨part, habove part hpart hne, hfirst, rfl⟩⟩
    exact (Path.components_descend_inj hroot).mp heq

/-- An entry is first outside when it is not in the one set and nothing above it is in the other. -/
theorem Noted.firstOutside_iff (h : job.Noted visible before set) (hroot : job.root.isAbsolute)
    (habove : ∀ part, part <+: names → part ≠ names → part ∈ before) :
    job.FirstOutside visible names ↔
      ¬(visible.contains (job.path names).components ||
        set.holdsBelow job.root ((job.path names).ancestors.drop 1)) := by
  rw [Bool.or_eq_true, not_or, h.holdsBelow_iff hroot habove]
  constructor
  · rintro ⟨hout, hin⟩
    refine ⟨Bool.eq_false_iff.mp hout, fun ⟨part, hpart, hne, hfirst⟩ => ?_⟩
    exact Bool.eq_false_iff.mp hfirst.1 (hin part hpart hne)
  · rintro ⟨hout, hnone⟩
    obtain ⟨part, hpart, hfirst⟩ := exists_firstOutside (Bool.eq_false_iff.mpr hout)
    by_cases heq : part = names
    · exact heq ▸ hfirst
    · exact absurd ⟨part, hpart, heq, hfirst⟩ hnone

/-- One more entry, behind those above it, is noted when it is first outside. -/
theorem Noted.note (h : job.Noted visible before set) (hroot : job.root.isAbsolute)
    (habove : ∀ part, part <+: names → part ≠ names → part ∈ before) :
    job.Noted visible (before ++ [names]) (job.note visible set (job.path names)) := by
  have hfirst := h.firstOutside_iff hroot habove
  intro c
  simp only [List.mem_append, List.mem_singleton, or_and_right, exists_or, exists_eq_left]
  rw [← h c]
  unfold Job.note
  split
  · next hskip =>
    exact ⟨.inl, fun hc => hc.resolve_right fun hn => hfirst.mp hn.1 hskip⟩
  · next hnote =>
    rw [PathSet.contains_insert, or_comm, @eq_comm _ _ c]
    exact ⟨fun hc => hc.imp_right fun he => ⟨hfirst.mpr hnote, he⟩, fun hc => hc.imp_right And.right⟩

end Noted

/-- Entries are noted one after the other, each behind those above it. -/
theorem noted_foldl {visible : PathSet} (hroot : job.root.isAbsolute) {list : List (List Name)} :
    (∀ front last back, list = front ++ last :: back →
      ∀ part, part <+: last → part ≠ last → part ∈ front) →
    job.Noted visible list ((list.map job.path).foldl (job.note visible) .empty) := by
  induction list using List.reverseRecOn with
  | nil => exact fun _ c => by simp
  | append_singleton front last ih =>
    intro habove
    have hfront := ih fun f l b hf part hpart hne =>
      habove f l (b ++ [last]) (by rw [hf]; simp) part hpart hne
    rw [List.map_append, List.map_singleton, List.foldl_concat]
    exact hfront.note hroot (habove front last [] rfl)

/-- In the order of a walk every entry is behind those above it. -/
theorem mem_front_of_reached {front back : List (List Name)} {last part : List Name}
    (h : job.reached = front ++ last :: back) (hpart : part <+: last) (hne : part ≠ last) :
    part ∈ front := by
  have hlast : last ∈ job.reached := by
    rw [h]
    exact List.mem_append_right _ List.mem_cons_self
  have hmem := mem_reached_of_prefix hlast hpart
  rw [h, List.mem_append, List.mem_cons] at hmem
  rcases hmem with hfront | heq | hback
  · exact hfront
  · exact absurd heq hne
  · have hpairwise := job.reached_pairwise
    rw [h, List.pairwise_append, List.pairwise_cons] at hpairwise
    exact absurd hpart (hpairwise.2.1.1 part hback)

/-- What is ignored below the root: what the walk without rules comes to first outside. -/
theorem contains_ignored {visible : PathSet} (hroot : job.root.isAbsolute) {c : List Component} :
    (job.ignored visible).contains c ↔
      ∃ names ∈ (job.heeding false).reached,
        job.FirstOutside visible names ∧ c = (job.path names).components :=
  noted_foldl hroot (fun _ _ _ h _ => mem_front_of_reached h) c

/-! ## The topmost ignored entries -/

/-- A scanned entry that the rules ignore, with nothing ignored above it. -/
structure Topmost (job : Job) (names : List Name) : Prop where
  scanned : job.Scanned names
  ignored : job.ignoresAt names
  free : ∀ part, part ≠ [] → part <+: names → part ≠ names → job.ignoresAt part = false

/-- At or above a scanned entry something is topmost as soon as something is ignored. -/
theorem exists_topmost_iff (h : job.Scanned names) :
    (∃ part, part <+: names ∧ job.Topmost part) ↔
      ∃ part, part ≠ [] ∧ part <+: names ∧ job.ignoresAt part := by
  constructor
  · rintro ⟨part, hpart, htop⟩
    exact ⟨part, htop.scanned.below, hpart, htop.ignored⟩
  · rintro ⟨part, hne, hpart, hign⟩
    obtain ⟨first, hfirst, ⟨hfne, hfign⟩, hfree⟩ :=
      exists_first_prefix (p := fun q => q ≠ [] ∧ job.ignoresAt q) ⟨hne, hign⟩
    have hon := hfirst.trans hpart
    refine ⟨first, hon, h.of_prefix hfne hon, hfign, fun q hqne hq hproper => ?_⟩
    rw [← Bool.not_eq_true]
    exact fun hq' => hfree q hq hproper ⟨hqne, hq'⟩

/-- What is visible is what the walk with rules comes to. -/
theorem contains_visible (hroot : job.root.isAbsolute) :
    job.visible.contains (job.path names).components ↔ names ∈ job.reached := by
  rw [visible, PathSet.contains_ofList, walker, List.map_map, List.mem_map]
  constructor
  · rintro ⟨other, hmem, heq⟩
    rw [← (Path.components_descend_inj hroot).mp heq]
    exact hmem
  · exact fun hmem => ⟨names, hmem, rfl⟩

/-- What is first outside is topmost. -/
theorem firstOutside_visible_iff (hroot : job.root.isAbsolute) :
    names ∈ (job.heeding false).reached ∧ job.FirstOutside job.visible names ↔
      job.Topmost names := by
  have hout : job.visible.contains (job.path names).components = false ↔ names ∉ job.reached := by
    rw [← contains_visible hroot, Bool.not_eq_true]
  simp only [FirstOutside, hout, contains_visible hroot]
  rw [mem_reached_heeding_false]
  constructor
  · rintro ⟨rfl | hscan, hnot, habove⟩
    · exact absurd List.mem_cons_self hnot
    · have hfree : ∀ part, part ≠ [] → part <+: names → part ≠ names →
          job.ignoresAt part = false := by
        intro part hne hpart hproper
        rcases mem_reached_iff_scanned.mp (habove part hpart hproper) with rfl | ⟨-, hvis⟩
        · exact absurd rfl hne
        · exact hvis part hne List.prefix_rfl
      refine ⟨hscan, ?_, hfree⟩
      by_contra hign
      refine hnot (mem_reached_iff_scanned.mpr (.inr ⟨hscan, fun part hne hpart => ?_⟩))
      by_cases heq : part = names
      · exact heq ▸ Bool.eq_false_iff.mpr hign
      · exact hfree part hne hpart heq
  · intro h
    refine ⟨.inr h.scanned, fun hmem => ?_, fun part hpart hproper => ?_⟩
    · rcases mem_reached_iff_scanned.mp hmem with h0 | ⟨-, hvis⟩
      · exact h.scanned.below h0
      · exact Bool.eq_false_iff.mp (hvis names h.scanned.below List.prefix_rfl) h.ignored
    · rw [mem_reached_iff_scanned]
      by_cases hne : part = []
      · exact .inl hne
      · refine .inr ⟨h.scanned.of_prefix hne hpart, fun p hpne hp => ?_⟩
        refine h.free p hpne (hp.trans hpart) fun heq => hproper ?_
        exact hpart.eq_of_length (Nat.le_antisymm hpart.length_le (heq ▸ hp.length_le))

/-- What a scan records: a topmost entry, or the entry `.git` of the root where it is asked for. -/
def Records (job : Job) (names : List Name) : Prop :=
  job.Topmost names ∨
    names = [.git] ∧ job.settings.includeGitDir ∧ job.place.exists? (job.root.child .git)

theorem Records.ne_nil (h : job.Records names) : names ≠ [] := by
  rcases h with htop | ⟨rfl, -⟩
  · exact htop.scanned.below
  · exact List.cons_ne_nil _ _

/-- The record of a scan holds what it is said to record. -/
theorem contains_recorded (hroot : job.root.isAbsolute) {c : List Component} :
    job.recorded.contains c ↔
      ∃ names, job.Records names ∧ c = (job.path names).components := by
  have htop : (job.ignored job.visible).contains c ↔
      ∃ names, job.Topmost names ∧ c = (job.path names).components := by
    rw [contains_ignored hroot]
    simp only [← firstOutside_visible_iff hroot, and_assoc]
  unfold recorded withGitDir Records
  dsimp only
  split
  · next h =>
    rw [Bool.and_eq_true] at h
    rw [PathSet.contains_insert, htop]
    constructor
    · rintro (rfl | ⟨names, hn, rfl⟩)
      · exact ⟨[.git], .inr ⟨rfl, h⟩, rfl⟩
      · exact ⟨names, .inl hn, rfl⟩
    · rintro ⟨names, hn | ⟨rfl, -⟩, rfl⟩
      · exact .inr ⟨names, hn, rfl⟩
      · exact .inl rfl
  · next h =>
    rw [Bool.and_eq_true] at h
    rw [htop]
    exact ⟨fun ⟨names, hn, hc⟩ => ⟨names, .inl hn, hc⟩,
      fun ⟨names, hn, hc⟩ => ⟨names, hn.resolve_right fun hg => h hg.2, hc⟩⟩

/-- Nothing that is recorded is at or below something else that is. -/
theorem Records.eq_of_prefix {others : List Name} (h : job.Records names)
    (h' : job.Records others) (hp : names <+: others) : names = others := by
  rcases h with h | ⟨rfl, -⟩
  · rcases h' with h' | ⟨rfl, -⟩
    · by_contra hne
      exact Bool.eq_false_iff.mp (h'.free names h.scanned.below hp hne) h.ignored
    · rcases List.prefix_cons_iff.mp hp with rfl | ⟨rest, rfl, hrest⟩
      · exact absurd rfl h.scanned.below
      · rw [List.prefix_nil.mp hrest]
  · rcases h' with h' | ⟨rfl, -⟩
    · exact absurd (hp.subset List.mem_cons_self) h'.scanned.unnamed
    · rfl

/-- No recorded path is at or below another one. -/
theorem eq_of_mem_recorded (hroot : job.root.isAbsolute) {p q : Path} (hp : p ∈ job.recorded.paths)
    (hq : q ∈ job.recorded.paths) (h : q.startsWith p) : p = q := by
  have hmem {p : Path} (hp : p ∈ job.recorded.paths) :=
    (contains_recorded hroot).mp (PathSet.contains_iff.mpr (List.mem_map_of_mem hp))
  obtain ⟨names, hnames, hpn⟩ := hmem hp
  obtain ⟨others, hothers, hqo⟩ := hmem hq
  rw [Path.startsWith, List.isPrefixOf_iff_prefix, hpn, hqo] at h
  have heq := hnames.eq_of_prefix hothers ((Path.components_descend_prefix hroot).mp h)
  exact List.inj_on_of_nodup_map job.recorded.distinct hp hq (by rw [hpn, hqo, heq])

/-- The root is not recorded. -/
theorem contains_recorded_root (hroot : job.root.isAbsolute) :
    job.recorded.contains job.root.components = false := by
  rw [← Bool.not_eq_true, contains_recorded hroot]
  rintro ⟨names, hnames, hc⟩
  obtain rfl : [] = names := (Path.components_descend_inj hroot).mp hc
  exact hnames.ne_nil rfl

/-- At or above a scanned entry something is recorded when the rules ignore something there. -/
theorem holdsBelow_recorded_iff (hroot : job.root.isAbsolute) {p : Path} (hp : p.isAbsolute)
    (hscan : job.Scanned names) (hc : p.components = (job.path names).components) :
    job.recorded.holdsBelow job.root p.ancestors ↔
      ∃ part, part ≠ [] ∧ part <+: names ∧ job.ignoresAt part := by
  rw [PathSet.holdsBelow_ancestors hroot hp, ← exists_topmost_iff hscan, hc]
  constructor
  · rintro ⟨c, -, hprefix, hrec⟩
    obtain ⟨part, hpart, rfl⟩ := (contains_recorded hroot).mp hrec
    have hon := (Path.components_descend_prefix hroot).mp hprefix
    rcases hpart with htop | ⟨rfl, -⟩
    · exact ⟨part, hon, htop⟩
    · exact absurd (hon.subset List.mem_cons_self) hscan.unnamed
  · rintro ⟨part, hon, htop⟩
    refine ⟨(job.path part).components, ?_, (Path.components_descend_prefix hroot).mpr hon,
      (contains_recorded hroot).mpr ⟨part, .inl htop, rfl⟩⟩
    exact Path.prefix_components_descend hroot _

end IgnoreAtlas.Scan.Job

namespace IgnoreAtlas

/-! ## The record -/

namespace Scan

/-- The job for a root is for that root. -/
theorem Job.of?_eq_some {place : Place} {settings : TrackerSettings} {root : Path} {job : Job}
    (h : Job.of? place settings root = some job) :
    job.place = place ∧ job.settings = settings ∧ job.root = root := by
  unfold of? at h
  split at h
  · split at h
    · cases h
      exact ⟨rfl, rfl, rfl⟩
    · cases h
  · cases h

/-- The walk with rules comes to the root at least. -/
theorem Job.contains_visible_root (job : Job) :
    job.visible.contains (job.path []).components := by
  rw [visible, PathSet.contains_ofList, walker]
  exact List.mem_map_of_mem (List.mem_map_of_mem List.mem_cons_self)

theorem Job.size_visible_ne_zero (job : Job) : job.visible.size ≠ 0 := by
  have hroot := job.contains_visible_root
  intro hnone
  rw [PathSet.contains_iff, List.length_eq_zero_iff.mp hnone] at hroot
  exact absurd hroot List.not_mem_nil

/-- A scan succeeds as soon as there is a job. -/
theorem record_eq_ok {place : Place} {settings : TrackerSettings} {root : Path} {job : Job}
    (h : Job.of? place settings root = some job) : record place settings root = .ok job.recorded := by
  rw [record, h]
  exact if_neg job.size_visible_ne_zero

/-- A scan that succeeds records for a job. -/
theorem exists_job_of_record {place : Place} {settings : TrackerSettings} {root : Path}
    {set : PathSet} (h : record place settings root = .ok set) :
    ∃ job, Job.of? place settings root = some job ∧
      set = job.recorded := by
  unfold record at h
  split at h
  · next job hjob =>
    split at h
    · cases h
    · cases h
      exact ⟨job, hjob, rfl⟩
  · cases h

end Scan

namespace Tracker

theorem mem_ignoredEntries {place : Place} {tracker : Tracker} {entry : IgnoredEntry} :
    entry ∈ tracker.ignoredEntries place ↔
      ∃ p ∈ tracker.recorded.paths, IgnoredEntry.ofPath place p = entry := by
  rw [ignoredEntries, IgnoredEntry.sort, List.mem_mergeSort, List.mem_map]

/-- A scan that succeeds replaces the record and changes nothing else. -/
theorem rescan_eq_ok {place : Place} {tracker after : Tracker}
    (h : tracker.rescan place = (.ok (), after)) :
    ∃ recorded, Scan.record place tracker.settings tracker.root = .ok recorded ∧
      after = { tracker with recorded, busy := false } := by
  unfold rescan at h
  split at h
  · next recorded hrecord =>
    cases h
    exact ⟨recorded, hrecord, rfl⟩
  · cases h

theorem isAbsolute_absolute {tracker : Tracker} (h : tracker.root.isAbsolute) (file : Path) :
    (tracker.absolute file).isAbsolute := by
  unfold absolute
  split
  · next habs => exact habs
  · exact Path.isAbsolute_join h file

/-- After a scan the record holds the topmost ignored entries, and `.git` of the root where it is
asked for; nothing recorded is at or below something else recorded, and the root is not recorded. A
scanned entry is ignored when the rules ignore it or something above it, however it is spelled. -/
theorem recorded_of_rescan {place : Place} {tracker after : Tracker}
    (hroot : tracker.root.isAbsolute) (h : tracker.rescan place = (.ok (), after)) :
    ∃ job, Scan.Job.of? place tracker.settings tracker.root = some job ∧
      (∀ c, after.recorded.contains c ↔
        (∃ names, job.Topmost names ∧ c = (tracker.root.descend names).components) ∨
          tracker.settings.includeGitDir ∧ place.exists? (tracker.root.child .git) ∧
            c = (tracker.root.child .git).components) ∧
      (∀ p ∈ after.recorded.paths, ∀ q ∈ after.recorded.paths, q.startsWith p → p = q) ∧
      after.recorded.contains tracker.root.components = false ∧
      ∀ names file, job.Scanned names →
        (tracker.absolute file).same (tracker.root.descend names) →
        (after.containsFile file ↔
          ∃ part, part ≠ [] ∧ part <+: names ∧ job.ignoresAt part) := by
  obtain ⟨recorded, hrecord, rfl⟩ := rescan_eq_ok h
  obtain ⟨job, hjob, rfl⟩ := Scan.exists_job_of_record hrecord
  obtain ⟨root, settings, before, busy⟩ := tracker
  obtain ⟨rfl, rfl, rfl⟩ := Scan.Job.of?_eq_some hjob
  refine ⟨job, hjob, fun c => ?_, fun p hp q hq => Scan.Job.eq_of_mem_recorded hroot hp hq,
    Scan.Job.contains_recorded_root hroot, fun names file hscan hfile => ?_⟩
  · rw [Scan.Job.contains_recorded hroot]
    constructor
    · rintro ⟨names, htop | ⟨rfl, hask, hthere⟩, hc⟩
      · exact .inl ⟨names, htop, hc⟩
      · exact .inr ⟨hask, hthere, hc⟩
    · rintro (⟨names, htop, hc⟩ | ⟨hask, hthere, hc⟩)
      · exact ⟨names, .inl htop, hc⟩
      · exact ⟨[.git], .inr ⟨rfl, hask, hthere⟩, hc⟩
  · exact Scan.Job.holdsBelow_recorded_iff hroot (isAbsolute_absolute hroot file) hscan
      (beq_iff_eq.mp hfile)

/-- A directory `/r` with an entry `.git`, a file `log`, and a rule that ignores `log`. -/
def ruledPlace : Place where
  files :=
    { top := .dir (.spell "r")
        (.dir .git .empty <| .file .gitignore (.literal (Utf8.encode "log")) <|
          .file (.spell "log") (.literal []) .empty) .empty
      distinct := by decide +kernel }
  cwd := []
  home := .ofString "/home"

/-- The tracker of that directory. -/
def ruledTracker : Tracker := ⟨.ofString "/r", {}, .empty, false⟩

/-- There `log` is topmost after a scan. -/
theorem recorded_of_rescan_ruledPlace :
    ruledTracker.root.isAbsolute ∧ ∃ after, ruledTracker.rescan ruledPlace = (.ok (), after) ∧
      ∃ job, Scan.Job.of? ruledPlace ruledTracker.settings ruledTracker.root = some job ∧
        ∃ names, job.Topmost names ∧
          (Path.ofString "/r/log").components = (ruledTracker.root.descend names).components := by
  have habs : ruledTracker.root.isAbsolute := by decide +kernel
  obtain ⟨job, hjob, hrecorded, -⟩ :=
    recorded_of_rescan habs (Eq.refl (ruledTracker.rescan ruledPlace))
  refine ⟨habs, _, rfl, job, hjob, ?_⟩
  rcases (hrecorded (Path.ofString "/r/log").components).mp (by decide +kernel) with h | h
  · exact h
  · exact absurd h.2.2 (by decide +kernel)

/-- A directory `/pen/hutch` without an entry `.git`, with a file `straw` and a rule that ignores it, in
a directory `/pen` with such an entry. -/
def enclosedPlace : Place where
  files :=
    { top := .dir (.spell "pen")
        (.dir .git .empty <| .dir (.spell "hutch")
          (.file .gitignore (.literal (Utf8.encode "straw")) <|
            .file (.spell "straw") (.literal []) .empty) .empty) .empty
      distinct := by decide +kernel }
  cwd := []
  home := .ofString "/home"

-- The repository around the root lets the rule count.
example : (rescan enclosedPlace ⟨.ofString "/pen/hutch", {}, .empty, false⟩).2.recorded.contains
    (Path.ofString "/pen/hutch/straw").components := by decide +kernel

end Tracker

end IgnoreAtlas
