import IgnoreAtlas.Proofs.Holder.Trackers

/-!
# Building a registry

Trackers are made one after the other, by a factory whose answers can depend on what it was asked
before. It is asked for each repository that is the same as none before it (`firsts`), in order and
once, up to its first failure: either the registry holds what the factory answered, or there is no
registry, and the failure names the repository of the last call (`calls_of_build`).

Which calls are made is seen by a factory that keeps a note of them (`noted`) and answers as the
other one does.
-/

namespace IgnoreAtlas

namespace Registry

variable {α σ : Type} {make : Repository → σ → Except Trouble α × σ} {registry : Registry α}
  {before rest repositories : List Repository} {r s : Repository}

/-! ## Repositories that come up for the first time -/

/-- Those of `rest` that are the same as none in front of them; `before` stands in front of all. -/
def firstsAfter (before : List Repository) : List Repository → List Repository
  | [] => []
  | r :: rest =>
    if before.any (·.same r) then firstsAfter (before ++ [r]) rest
    else r :: firstsAfter (before ++ [r]) rest

/-- The repositories that are the same as none in front of them. -/
def firsts (repositories : List Repository) : List Repository := firstsAfter [] repositories

theorem mem_firstsAfter_iff :
    r ∈ firstsAfter before rest ↔
      ∃ front back, rest = front ++ r :: back ∧ ∀ s ∈ before ++ front, ¬s.same r := by
  induction rest generalizing before with
  | nil => simp [firstsAfter]
  | cons next rest ih =>
    -- A repository comes up as the first of all, or behind it.
    have hsplit : (∃ front back, next :: rest = front ++ r :: back ∧
          ∀ s ∈ before ++ front, ¬s.same r) ↔
        r = next ∧ (∀ s ∈ before, ¬s.same next) ∨ r ∈ firstsAfter (before ++ [next]) rest := by
      rw [ih]
      constructor
      · rintro ⟨front, back, heq, hnone⟩
        cases front with
        | nil =>
          cases heq
          exact .inl ⟨rfl, by simpa using hnone⟩
        | cons first front =>
          cases heq
          exact .inr ⟨front, back, rfl, by simpa using hnone⟩
      · rintro (⟨rfl, hnone⟩ | ⟨front, back, rfl, hnone⟩)
        · exact ⟨[], rest, rfl, by simpa using hnone⟩
        · exact ⟨next :: front, back, rfl, by simpa using hnone⟩
    rw [hsplit, firstsAfter]
    split
    · next hthere =>
      obtain ⟨s, hs, hsame⟩ := List.any_eq_true.mp hthere
      exact ⟨.inr, fun h => h.resolve_left fun hfirst => hfirst.2 s hs hsame⟩
    · next hnot =>
      rw [List.mem_cons]
      refine or_congr_left ⟨fun heq => ⟨heq, fun s hs hsame => hnot ?_⟩, And.left⟩
      exact List.any_eq_true.mpr ⟨s, hs, hsame⟩

theorem firstsAfter_sublist : (firstsAfter before rest).Sublist rest := by
  induction rest generalizing before with
  | nil => exact .slnil
  | cons r rest ih =>
    rw [firstsAfter]
    split
    · exact ih.cons r
    · exact ih.cons_cons r

theorem firstsAfter_pairwise : (firstsAfter before rest).Pairwise fun a b => ¬a.same b := by
  induction rest generalizing before with
  | nil => exact .nil
  | cons r rest ih =>
    rw [firstsAfter]
    split
    · exact ih
    · refine List.pairwise_cons.mpr ⟨fun b hb => ?_, ih⟩
      obtain ⟨front, -, -, hnone⟩ := mem_firstsAfter_iff.mp hb
      exact hnone r (by simp)

/-! ## What a registry has -/

theorem contains_of_same (h : registry.contains r) (hsame : r.same s) : registry.contains s := by
  obtain ⟨e, he, hr⟩ := List.any_eq_true.mp h
  refine List.any_eq_true.mpr ⟨e, he, Path.same_iff.mpr ?_⟩
  exact (Path.same_iff.mp hr).trans (Path.same_iff.mp hsame)

/-- What the registry has, it still has when a repository that it has comes up. -/
theorem contains_iff_of_there (h : ∀ q, registry.contains q ↔ ∃ s ∈ before, s.same q)
    (hthere : registry.contains r) (q : Repository) :
    registry.contains q ↔ ∃ s ∈ before ++ [r], s.same q := by
  rw [h q]
  constructor
  · exact fun ⟨s, hs, hsame⟩ => ⟨s, List.mem_append_left _ hs, hsame⟩
  · rintro ⟨s, hs, hsame⟩
    rcases List.mem_append.mp hs with hs | hs
    · exact ⟨s, hs, hsame⟩
    · rw [List.mem_singleton.mp hs] at hsame
      exact (h q).mp (contains_of_same hthere hsame)

/-! ## The calls of a factory -/

/-- The factory, with a note of every call behind its state: whom it was for, and the answer. -/
def noted (make : Repository → σ → Except Trouble α × σ) (repository : Repository)
    (state : σ × List (Repository × Except Trouble α)) :
    Except Trouble α × σ × List (Repository × Except Trouble α) :=
  let (answer, next) := make repository state.1
  (answer, next, state.2 ++ [(repository, answer)])

/-- The calls that gave these trackers. -/
def answered (made : List (Repository × α)) : List (Repository × Except Trouble α) :=
  made.map fun e => (e.1, .ok e.2)

theorem mem_answered_iff {made : List (Repository × α)} {tracker : α} :
    (r, .ok tracker) ∈ answered made ↔ (r, tracker) ∈ made := by
  simp [answered]

theorem exists_ok_of_mem_answered {made : List (Repository × α)}
    {call : Repository × Except Trouble α} (h : call ∈ answered made) :
    ∃ tracker, call.2 = .ok tracker := by
  obtain ⟨e, -, rfl⟩ := List.mem_map.mp h
  exact ⟨e.2, rfl⟩

/-- How building ends after these calls, where trackers are `due` for these repositories. -/
inductive Ends (due : List Repository) :
    List (Repository × Except Trouble α) → Except HolderTrouble (Registry α) → Prop
  /-- Every repository got a tracker. -/
  | done (registry : Registry α) (h : registry.repositories = due) :
      Ends due (answered registry.entries) (.ok registry)
  /-- The last call failed, and the others gave trackers. -/
  | failed (made : List (Repository × α)) (r : Repository) (rest : List Repository)
      (cause : Trouble) (h : due = made.map (·.1) ++ r :: rest) :
      Ends due (answered made ++ [(r, .error cause)]) (.error (.construction r.root cause))

/-- Building goes on from a registry whose calls have been noted. -/
theorem ends_buildFrom (make : Repository → σ → Except Trouble α × σ) (rest : List Repository)
    (registry : Registry α) (state : σ)
    (hcontains : ∀ r, registry.contains r ↔ ∃ s ∈ before, s.same r) :
    ∃ outcome final calls,
      buildFrom make registry state rest = (outcome, final) ∧
      buildFrom (noted make) registry (state, answered registry.entries) rest =
        (outcome, final, calls) ∧
      Ends (registry.repositories ++ firstsAfter before rest) calls outcome := by
  induction rest generalizing registry state before with
  | nil =>
    exact ⟨.ok registry, state, answered registry.entries, rfl, rfl,
      .done registry (List.append_nil _).symm⟩
  | cons r rest ih =>
    unfold buildFrom
    by_cases hthere : registry.contains r
    · have hfirsts : firstsAfter before (r :: rest) = firstsAfter (before ++ [r]) rest :=
        if_pos (List.any_eq_true.mpr ((hcontains r).mp hthere))
      rw [dif_pos hthere, dif_pos hthere, hfirsts]
      exact ih registry state (contains_iff_of_there hcontains hthere)
    · have hfirsts : firstsAfter before (r :: rest) = r :: firstsAfter (before ++ [r]) rest :=
        if_neg fun hany => hthere ((hcontains r).mpr (List.any_eq_true.mp hany))
      rw [dif_neg hthere, dif_neg hthere, hfirsts]
      cases hmake : make r state with
      | mk answer next =>
        simp only [noted, hmake]
        cases answer with
        | error cause => exact ⟨_, _, _, rfl, rfl, .failed registry.entries r _ cause rfl⟩
        | ok tracker =>
          have hadded (q : Repository) : (registry.add r tracker hthere).contains q ↔
              ∃ s ∈ before ++ [r], s.same q := by
            rw [contains_add, hcontains q]
            simp [or_and_right, exists_or]
          have hnext := ih (registry.add r tracker hthere) next hadded
          rw [repositories_add, List.append_assoc, List.singleton_append] at hnext
          have hlog : answered (registry.add r tracker hthere).entries =
              answered registry.entries ++ [(r, .ok tracker)] := List.map_append
          rw [hlog] at hnext
          exact hnext

/-! ## Building -/

theorem Ends.calls_prefix {due : List Repository} {calls : List (Repository × Except Trouble α)}
    {outcome : Except HolderTrouble (Registry α)} (h : Ends due calls outcome) :
    calls.map (·.1) <+: due := by
  cases h with
  | done registry h => exact ⟨[], by simp [← h, answered, repositories]⟩
  | failed made r rest cause h => exact ⟨rest, by simp [h, answered]⟩

/-- There is a registry exactly if no call failed. -/
theorem Ends.exists_ok_iff {due : List Repository}
    {calls : List (Repository × Except Trouble α)}
    {outcome : Except HolderTrouble (Registry α)} (h : Ends due calls outcome) :
    (∃ registry, outcome = .ok registry) ↔ ∀ call ∈ calls, ∃ tracker, call.2 = .ok tracker := by
  cases h with
  | done registry h =>
    exact ⟨fun _ _ hcall => exists_ok_of_mem_answered hcall, fun _ => ⟨registry, rfl⟩⟩
  | failed made r rest cause h =>
    refine ⟨nofun, fun hall => ?_⟩
    obtain ⟨tracker, hok⟩ := hall (r, .error cause) (by simp)
    cases hok

/-- A repository has the tracker that the call for it gave. -/
theorem Ends.get?_eq_some_iff {due : List Repository}
    {calls : List (Repository × Except Trouble α)} (h : Ends due calls (.ok registry))
    {tracker : α} :
    registry.get? r = some tracker ↔ ∃ s, s.same r ∧ (s, .ok tracker) ∈ calls := by
  cases h with
  | done registry h =>
    simp only [Registry.get?_eq_some_iff, mem_answered_iff, Repository.same, Path.same_iff]
    constructor
    · rintro ⟨⟨s, made⟩, he, hsame, rfl⟩
      exact ⟨s, hsame, he⟩
    · rintro ⟨s, hsame, he⟩
      exact ⟨(s, tracker), he, hsame, rfl⟩

/-- Whom a factory is asked for when a registry is built, and what comes of its answers. -/
theorem calls_of_build (make : Repository → σ → Except Trouble α × σ) (state : σ)
    (repositories : List Repository) :
    ∃ outcome final calls,
      build make state repositories = (outcome, final) ∧
      build (noted make) (state, []) repositories = (outcome, final, calls) ∧
      Ends (firsts repositories) calls outcome ∧
      calls.map (·.1) <+: firsts repositories ∧
      ((∃ registry, outcome = .ok registry) ↔ ∀ call ∈ calls, ∃ tracker, call.2 = .ok tracker) ∧
      (∀ registry, outcome = .ok registry → ∀ r tracker,
        registry.get? r = some tracker ↔ ∃ s, s.same r ∧ (s, .ok tracker) ∈ calls) ∧
      (∀ r, r ∈ firsts repositories ↔
        ∃ front back, repositories = front ++ r :: back ∧
          ∀ s ∈ front, s.root.components ≠ r.root.components) ∧
      (firsts repositories).Sublist repositories ∧
      (firsts repositories).Pairwise fun a b => a.root.components ≠ b.root.components := by
  have hempty (r : Repository) :
      (empty : Registry α).contains r ↔ ∃ s ∈ ([] : List Repository), s.same r := by
    simp [empty, contains]
  obtain ⟨outcome, final, calls, hbuild, hnoted, hends⟩ :=
    ends_buildFrom make repositories empty state hempty
  refine ⟨outcome, final, calls, hbuild, hnoted, hends, hends.calls_prefix, hends.exists_ok_iff,
    ?_, ?_, firstsAfter_sublist, ?_⟩
  · rintro registry rfl r tracker
    exact hends.get?_eq_some_iff
  · intro r
    rw [firsts, mem_firstsAfter_iff]
    simp only [List.nil_append, Repository.same, Path.same_iff, ne_eq]
  · refine firstsAfter_pairwise.imp fun {a b} hnot hsame => hnot (Path.same_iff.mpr hsame)

/-- Neither another name nor another spelling of the root makes another repository. -/
example : firsts [⟨"a", .ofString "/w/a"⟩, ⟨"b", .ofString "/w/b"⟩, ⟨"c", .ofString "/w//a/."⟩] =
    [⟨"a", .ofString "/w/a"⟩, ⟨"b", .ofString "/w/b"⟩] := by
  decide +kernel

end Registry

end IgnoreAtlas
