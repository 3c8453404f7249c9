import IgnoreAtlas.Proofs.FileSystem.Walking
import IgnoreAtlas.Proofs.Path.Normal

/-!
# The steps of a path and its components

The steps of a path are those of its components, and a `stay` wherever nothing or a `.` stands between
two slashes (`withoutStay_steps`). A walk stays in directories only, so each `stay` can be left out,
and put back if the walk ends in a directory (`walk_withoutStay_iff`). Hence all spellings of one path
lead to the same directory (`resolve_of_components_eq`).
-/

namespace IgnoreAtlas

/-- What stands between separators has none in it. -/
theorem not_mem_of_mem_splitOn {separator : UInt8} {bytes piece : Bytes}
    (h : piece ∈ splitOn separator bytes) : separator ∉ piece := by
  induction bytes generalizing piece with
  | nil =>
    rw [splitOn, List.mem_singleton] at h
    rw [h]
    exact List.not_mem_nil
  | cons b bytes ih =>
    unfold splitOn at h
    split at h
    · rcases List.mem_cons.mp h with rfl | h
      · exact List.not_mem_nil
      · exact ih h
    · next hb =>
      obtain ⟨first, rest, hsplit⟩ := List.exists_cons_of_ne_nil (splitOn_ne_nil separator bytes)
      rw [hsplit] at h ih
      rcases List.mem_cons.mp h with rfl | h
      · rw [List.mem_cons, not_or]
        exact ⟨Ne.symm hb, ih List.mem_cons_self⟩
      · exact ih (List.mem_cons_of_mem _ h)

/-- What a segment of a path can stand for. -/
theorem Component.ofSegment?_cases {segment : Bytes} (h : slash ∉ segment) :
    (segment = [] ∨ segment = [dot]) ∧ ofSegment? segment = none ∨
      segment = [dot, dot] ∧ ofSegment? segment = some .up ∨
        ∃ n, n.bytes = segment ∧ ofSegment? segment = some (.name n) := by
  unfold ofSegment?
  by_cases hup : segment = [dot, dot]
  · exact .inr (.inl ⟨hup, if_pos hup⟩)
  · rw [if_neg hup]
    by_cases hname : IsName segment
    · exact .inr (.inr ⟨⟨segment, hname⟩, rfl, dif_pos hname⟩)
    · refine .inl ⟨?_, dif_neg hname⟩
      by_contra hne
      rw [not_or] at hne
      exact hname ⟨hne.1, h, hne.2, hup⟩

namespace Step

/-- The step that a component asks for. The top and a `.` in front ask for none. -/
def ofComponent? : Component → Option Step
  | .root | .here => none
  | .up => some .up
  | .name n => some (.enter n)

/-- The steps that do not stay. -/
def withoutStay (steps : List Step) : List Step := steps.filter (· ≠ .stay)

theorem withoutStay_stay (steps : List Step) : withoutStay (.stay :: steps) = withoutStay steps := rfl

theorem withoutStay_cons {step : Step} (h : step ≠ .stay) (steps : List Step) :
    withoutStay (step :: steps) = step :: withoutStay steps :=
  List.filter_cons_of_pos (by simpa using h)

theorem withoutStay_append (steps more : List Step) :
    withoutStay (steps ++ more) = withoutStay steps ++ withoutStay more := List.filter_append ..

theorem withoutStay_map_ofSegment {segments : List Bytes} (h : ∀ segment ∈ segments, slash ∉ segment) :
    withoutStay (segments.map ofSegment) =
      (segments.filterMap Component.ofSegment?).filterMap ofComponent? := by
  induction segments with
  | nil => rfl
  | cons segment segments ih =>
    have hrest := ih fun other hother => h other (List.mem_cons_of_mem _ hother)
    rw [List.map_cons]
    rcases Component.ofSegment?_cases (h segment List.mem_cons_self) with ⟨-, hs⟩ | ⟨-, hs⟩ | ⟨n, -, hs⟩
    · have hstep : ofSegment segment = .stay := by rw [ofSegment, hs]
      rw [List.filterMap_cons_none hs, hstep, withoutStay_stay, hrest]
    · have hstep : ofSegment segment = .up := by rw [ofSegment, hs]
      rw [List.filterMap_cons_some hs, hstep, withoutStay_cons (by simp), hrest]
      rfl
    · have hstep : ofSegment segment = .enter n := by rw [ofSegment, hs]
      rw [List.filterMap_cons_some hs, hstep, withoutStay_cons (by simp), hrest]
      rfl

end Step

namespace Path

variable {p q : Path} {n : Name}

/-- But for those that stay, the steps of a path are those of its components. -/
theorem withoutStay_steps (p : Path) :
    Step.withoutStay p.steps = p.components.filterMap Step.ofComponent? := by
  have hsegments : ∀ segment ∈ p.segments, slash ∉ segment := fun _ => not_mem_of_mem_splitOn
  rw [steps, Step.withoutStay_map_ofSegment hsegments, components]
  split
  · rfl
  · split <;> rfl

/-- A byte of a path that is neither slash nor dot is a byte of one of its names. -/
theorem mem_bytes_iff {b : UInt8} (hslash : b ≠ slash) (hdot : b ≠ dot) :
    b ∈ p.bytes ↔ ∃ n, .name n ∈ p.components ∧ b ∈ n.bytes := by
  have hname : ∀ n, .name n ∈ p.components ↔
      ∃ segment ∈ p.segments, Component.ofSegment? segment = some (.name n) := by
    intro n
    rw [← List.mem_filterMap, components]
    split
    · simp
    · split <;> simp
  simp only [hname]
  rw [← joinWith_splitOn slash p.bytes, mem_joinWith_iff hslash]
  constructor
  · rintro ⟨segment, hsegment, hb⟩
    rcases Component.ofSegment?_cases (not_mem_of_mem_splitOn hsegment) with
      ⟨rfl | rfl, -⟩ | ⟨rfl, -⟩ | ⟨n, rfl, hs⟩
    · cases hb
    · exact absurd (List.mem_singleton.mp hb) hdot
    · simp [hdot] at hb
    · exact ⟨n, ⟨n.bytes, hsegment, hs⟩, hb⟩
  · rintro ⟨n, ⟨segment, hsegment, hs⟩, hb⟩
    rcases Component.ofSegment?_cases (not_mem_of_mem_splitOn hsegment) with
      ⟨-, hother⟩ | ⟨-, hother⟩ | ⟨m, hm, hother⟩
    · rw [hs] at hother
      cases hother
    · rw [hs] at hother
      cases hother
    · rw [hs] at hother
      cases hother
      exact ⟨segment, hsegment, hm ▸ hb⟩

/-- All spellings of a path are absolute when one of them is. -/
theorem isAbsolute_of_components_eq (h : p.isAbsolute) (hsame : q.components = p.components) :
    q.isAbsolute :=
  isAbsolute_of_startsWith h (startsWith_iff.mpr (hsame ▸ List.prefix_rfl))

/-- The last step to an entry enters its name, and those before lead where the path does. -/
theorem exists_steps_child (h : p.isAbsolute) (n : Name) :
    ∃ front, (p.child n).steps = front ++ [.enter n] ∧
      Step.withoutStay front = Step.withoutStay p.steps := by
  obtain ⟨kept, -, hsegments, -⟩ := exists_segments_child (bytes_ne_nil h) n
  have hsteps : (p.child n).steps = kept.map Step.ofSegment ++ [.enter n] := by
    rw [steps, hsegments, List.map_append, List.map_singleton, ofSegment_name]
  refine ⟨_, hsteps, ?_⟩
  have hall := withoutStay_steps (p.child n)
  rw [hsteps, components_child h, List.filterMap_append, ← withoutStay_steps p,
    Step.withoutStay_append] at hall
  exact List.append_cancel_right hall

end Path

/-- A name that a path may have in it. -/
structure Name.Legal (n : Name) : Prop where
  short : n.bytes.length ≤ FileSystem.longestName
  clean : 0 ∉ n.bytes

namespace FileSystem

variable {fs : FileSystem} {links : Nat} {location found cwd above : Location} {step : Step}
  {steps : List Step} {inside : Listing} {p q : Path} {n : Name} {e : Entry}

/-- A walk that ends in a directory has set out from one. -/
theorem exists_listing?_of_walk (hfound : fs.listing? found = some inside)
    (h : fs.walk false links location steps = .ok found) :
    ∃ inside, fs.listing? location = some inside := by
  cases steps with
  | nil =>
    rw [walk_nil, Except.ok.injEq] at h
    exact ⟨inside, h ▸ hfound⟩
  | cons step steps => exact exists_listing?_of_walk_cons h

/-- The first step of a walk leads somewhere, and the walk goes on from there. -/
theorem walk_cons_eq_walk (h : fs.walk false links location (step :: steps) = .ok found) :
    ∃ mid left, fs.walk false links location [step] = .ok mid ∧
      ∀ rest, fs.walk false links location (step :: rest) = fs.walk false left mid rest := by
  cases hfirst : fs.walk false links location [step] with
  | error fault =>
    have hnone := walk_append_error hfirst steps
    rw [List.singleton_append, h] at hnone
    cases hnone
  | ok mid =>
    obtain ⟨left, -, hrest⟩ := walk_append hfirst
    exact ⟨mid, left, rfl, hrest⟩

/-- A walk gets where it does without the steps that stay. -/
theorem walk_withoutStay (h : fs.walk false links location steps = .ok found) :
    fs.walk false links location (Step.withoutStay steps) = .ok found := by
  induction steps generalizing links location with
  | nil => exact h
  | cons step steps ih =>
    obtain ⟨mid, left, hfirst, hrest⟩ := walk_cons_eq_walk h
    rw [hrest] at h
    by_cases hstay : step = .stay
    · subst hstay
      obtain ⟨inside, hinside⟩ := exists_listing?_of_walk_cons hfirst
      rw [← hrest, walk_stay hinside] at h
      exact ih h
    · rw [Step.withoutStay_cons hstay, hrest]
      exact ih h

/-- To a directory it also gets with them. -/
theorem walk_withoutStay_iff (hfound : fs.listing? found = some inside) :
    fs.walk false links location (Step.withoutStay steps) = .ok found ↔
      fs.walk false links location steps = .ok found := by
  refine ⟨fun h => ?_, walk_withoutStay⟩
  induction steps generalizing links location with
  | nil => exact h
  | cons step steps ih =>
    by_cases hstay : step = .stay
    · subst hstay
      rw [Step.withoutStay_stay] at h
      obtain ⟨here, hhere⟩ := exists_listing?_of_walk hfound h
      rw [walk_stay hhere]
      exact ih h
    · rw [Step.withoutStay_cons hstay] at h
      obtain ⟨mid, left, -, hrest⟩ := walk_cons_eq_walk h
      rw [hrest] at h ⊢
      exact ih h

/-- Steps that differ in where they stay lead to the same directories. -/
theorem walk_iff_of_withoutStay_eq {others : List Step} (hfound : fs.listing? found = some inside)
    (h : Step.withoutStay steps = Step.withoutStay others) :
    fs.walk false links location steps = .ok found ↔
      fs.walk false links location others = .ok found := by
  rw [← walk_withoutStay_iff hfound, h, walk_withoutStay_iff hfound]

/-- All spellings of one path lead to the same directory. -/
theorem resolve_of_components_eq (hfound : fs.listing? found = some inside)
    (h : fs.resolve cwd p = .ok found) (habsolute : p.isAbsolute)
    (hsame : q.components = p.components) : fs.resolve cwd q = .ok found := by
  have hslash : (0 : UInt8) ≠ slash := by decide
  have hdot : (0 : UInt8) ≠ dot := by decide
  have hother := Path.isAbsolute_of_components_eq habsolute hsame
  have hsteps : Step.withoutStay p.steps = Step.withoutStay q.steps := by
    rw [Path.withoutStay_steps, Path.withoutStay_steps, hsame]
  rw [resolve_eq_ok_iff, Path.mem_bytes_iff hslash hdot] at h ⊢
  rw [if_pos habsolute, walk_iff_of_withoutStay_eq hfound hsteps] at h
  rw [if_pos hother, hsame]
  exact ⟨Path.bytes_ne_nil hother, h.2⟩

/-! ## Entries of a directory -/

theorem nul_mem_child_iff (h : p.isAbsolute) :
    0 ∈ (p.child n).bytes ↔ 0 ∈ p.bytes ∨ 0 ∈ n.bytes := by
  have hslash : (0 : UInt8) ≠ slash := by decide
  have hdot : (0 : UInt8) ≠ dot := by decide
  simp only [Path.mem_bytes_iff hslash hdot, Path.components_child h, List.mem_append,
    List.mem_singleton, Component.name.injEq, or_and_right, exists_or, exists_eq_left]

/-- The path of an entry that is no link leads to it. -/
theorem resolve_child (habsolute : q.isAbsolute) (hlegal : n.Legal)
    (h : fs.resolve cwd q = .ok above) (hinside : fs.listing? above = some inside)
    (hfind : inside.find? n = some e) (hlink : e.isLink = false) :
    fs.resolve cwd (q.child n) = .ok (above ++ [n]) := by
  have hchild := Path.isAbsolute_child habsolute n
  obtain ⟨front, hsteps, hfront⟩ := Path.exists_steps_child habsolute n
  obtain ⟨-, hclean, hwalk⟩ := resolve_eq_ok_iff.mp h
  rw [if_pos habsolute, ← walk_iff_of_withoutStay_eq hinside hfront] at hwalk
  obtain ⟨left, -, hrest⟩ := walk_append hwalk
  rw [resolve_eq_ok_iff, nul_mem_child_iff habsolute, not_or, if_pos hchild, hsteps, hrest,
    walk_enter hinside hfind hlink hlegal.short, walk_nil]
  exact ⟨Path.bytes_ne_nil hchild, ⟨hclean, hlegal.clean⟩, rfl⟩

/-- When the path of an entry leads somewhere, the entry is there. -/
theorem exists_of_resolve_child (habsolute : q.isAbsolute)
    (h : fs.resolve cwd (q.child n) = .ok found) :
    n.Legal ∧ ∃ above inside e, fs.resolve cwd q = .ok above ∧ fs.listing? above = some inside ∧
      inside.find? n = some e ∧ (e.isLink = false → found = above ++ [n]) := by
  obtain ⟨front, hsteps, hfront⟩ := Path.exists_steps_child habsolute n
  obtain ⟨-, hclean, hwalk⟩ := resolve_eq_ok_iff.mp h
  rw [nul_mem_child_iff habsolute, not_or] at hclean
  rw [if_pos (Path.isAbsolute_child habsolute n), hsteps] at hwalk
  cases hfirst : fs.walk false mostLinks [] front with
  | error fault =>
    rw [walk_append_error hfirst] at hwalk
    cases hwalk
  | ok above =>
    obtain ⟨left, -, hrest⟩ := walk_append hfirst
    rw [hrest] at hwalk
    obtain ⟨hshort, inside, e, hinside, hfind, hgoes⟩ := exists_find?_of_walk_enter hwalk
    have habove : fs.resolve cwd q = .ok above := by
      rw [walk_iff_of_withoutStay_eq hinside hfront] at hfirst
      rw [resolve_eq_ok_iff, if_pos habsolute]
      exact ⟨Path.bytes_ne_nil habsolute, hclean.1, hfirst⟩
    refine ⟨⟨hshort, hclean.2⟩, above, inside, e, habove, hinside, hfind, ?_⟩
    intro hlink
    have hend := hgoes hlink
    rw [walk_nil, Except.ok.injEq] at hend
    exact hend.symm

end FileSystem

end IgnoreAtlas
