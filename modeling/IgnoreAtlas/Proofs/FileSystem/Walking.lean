import IgnoreAtlas.Proofs.FileSystem.Entries
import IgnoreAtlas.Proofs.Path.Components

/-!
# Where a walk ends

A walk goes on one move after the other (`walk_cons`), and every move takes a step away or a link
from those that may still be followed (`walk_induction`). Three facts are proved by that induction:

- What a walk finds is no link, and is reached through real directories (`real_of_walk`).
- A walk goes on from where its first part has ended, with fewer links to follow (`walk_append`).
- How a walk ends does not depend on how many links it may follow, unless it gives up for too many of
  them (`walk_mono`).

The path of such a location leads there and nowhere else, without following a link
(`eq_of_resolve_ofLocation`). It can still lead nowhere: a name can be too long, or have a byte in it
that no path may have.
-/

namespace IgnoreAtlas

/-! ## Steps of a location -/

/-- What is in joined pieces is a separator or in one of them. -/
theorem mem_joinWith_iff {separator b : UInt8} (hb : b ≠ separator) :
    ∀ {pieces : List Bytes}, b ∈ joinWith separator pieces ↔ ∃ piece ∈ pieces, b ∈ piece
  | [] => by simp [joinWith]
  | [piece] => by simp [joinWith]
  | piece :: next :: pieces => by
    rw [joinWith_cons_cons, List.mem_append, List.mem_cons, mem_joinWith_iff hb]
    simp [hb]

namespace Path

theorem segments_ofLocation {location : Location} (h : location ≠ []) :
    (ofLocation location).segments = [] :: location.map Name.bytes := by
  have hpieces : ∀ piece ∈ location.map Name.bytes, slash ∉ piece := by
    intro piece hp
    obtain ⟨n, -, rfl⟩ := List.mem_map.mp hp
    exact n.isName.2.1
  have hne : location.map Name.bytes ≠ [] := by simpa using h
  have hsplit := splitOn_append_cons slash [] (joinWith slash (location.map Name.bytes))
  rw [List.nil_append] at hsplit
  rw [segments, ofLocation, hsplit, splitOn_joinWith hne hpieces]
  rfl

@[simp] theorem ofSegment_name (n : Name) : Step.ofSegment n.bytes = .enter n := by
  rw [Step.ofSegment, Component.ofSegment?_name]

/-- The path of a location enters its names one after the other. -/
theorem steps_ofLocation {location : Location} (h : location ≠ []) :
    (ofLocation location).steps = .stay :: location.map .enter := by
  have hstay : Step.ofSegment [] = .stay := by decide
  rw [steps, segments_ofLocation h, List.map_cons, hstay, List.map_map]
  congr 1
  exact List.map_congr_left fun n _ => ofSegment_name n

/-- The path of a location has a byte in it that no path may have when a name of it has. -/
theorem nul_mem_ofLocation {location : Location} :
    0 ∈ (ofLocation location).bytes ↔ ∃ n ∈ location, 0 ∈ n.bytes := by
  have hslash : (0 : UInt8) ≠ slash := by decide
  rw [ofLocation, List.mem_cons, mem_joinWith_iff hslash]
  simp [hslash]

theorem steps_ne_nil (p : Path) : p.steps ≠ [] := by
  rw [steps, ne_eq, List.map_eq_nil_iff]
  exact splitOn_ne_nil slash p.bytes

end Path

namespace FileSystem

variable {fs : FileSystem} {links left : Nat} {location mid found cwd : Location} {step : Step}
  {steps more : List Step} {names : List Name} {fault : Fault}

/-! ## Real entries -/

/-- There is an entry at the location, and it is no link. -/
def Real (fs : FileSystem) (location : Location) : Prop :=
  ∃ e, fs.entry? location = some e ∧ e.isLink = false

/-- The directories are the entries that are directories. -/
theorem entry?_eq_dir_iff {inside : Listing} :
    fs.entry? location = some (.dir inside) ↔ fs.listing? location = some inside := by
  rw [entry?_eq, listing?]
  rcases List.eq_nil_or_concat' location with rfl | ⟨above, n, rfl⟩
  · simp [Listing.entry?, Listing.descend]
  · rw [Listing.entry?_concat, Listing.descend_append]
    simp only [Option.bind_eq_some_iff, Listing.descend_singleton]

theorem real_of_listing? {inside : Listing} (h : fs.listing? location = some inside) :
    fs.Real location :=
  ⟨.dir inside, entry?_eq_dir_iff.mpr h, rfl⟩

theorem real_nil (fs : FileSystem) : fs.Real [] := ⟨.dir fs.top, rfl, rfl⟩

/-- What is above an entry is a directory. -/
theorem exists_listing?_of_entry? {above : Location} {e : Entry} (h : names ≠ [])
    (he : fs.entry? (above ++ names) = some e) : ∃ inside, fs.listing? above = some inside := by
  rw [entry?_eq] at he
  exact Listing.exists_descend_of_entry? h (Option.isSome_of_eq_some he)

/-- What is above something real is real. -/
theorem Real.of_prefix {above : Location} (h : fs.Real location) (habove : above <+: location) :
    fs.Real above := by
  obtain ⟨names, rfl⟩ := habove
  obtain ⟨e, he, hlink⟩ := h
  by_cases hnil : names = []
  · rw [hnil, List.append_nil] at he
    exact ⟨e, he, hlink⟩
  · obtain ⟨inside, hinside⟩ := exists_listing?_of_entry? hnil he
    exact real_of_listing? hinside

theorem entry?_concat {inside : Listing} (h : fs.listing? location = some inside) (n : Name) :
    fs.entry? (location ++ [n]) = inside.find? n := by
  rw [entry?_append h, Listing.entry?_singleton]

/-! ## One move -/

/-- A walk stands in directories only. -/
theorem standing_eq_ok {inside : Listing} :
    fs.standing location = .ok inside ↔ fs.listing? location = some inside := by
  unfold standing
  split
  · next l _ hl => rw [hl, Except.ok.injEq, Option.some_inj]
  · next hl _ => rw [hl]; exact ⟨nofun, nofun⟩
  · next hl _ => rw [hl]; exact ⟨nofun, nofun⟩

/-- What one step does to a walk: how many links are left, where it stands then, and the steps that a
link puts in front of those to come. -/
def move (fs : FileSystem) (links : Nat) (location : Location) (step : Step) :
    Except Fault (Nat × Location × List Step) :=
  match fs.standing location, step with
  | .error fault, _ => .error fault
  | .ok _, .stay => .ok (links, location, [])
  | .ok _, .up => .ok (links, location.dropLast, [])
  | .ok inside, .enter n =>
    if longestName < n.bytes.length then .error .nameTooLong
    else
      match inside.find? n, links with
      | none, _ => .error .missing
      | some (.link _), 0 => .error .tooManyLinks
      | some (.link target), left + 1 =>
        .ok (left, if target.isAbsolute then [] else location, target.steps)
      | some _, _ => .ok (links, location ++ [n], [])

/-- What has a result goes on with it. -/
theorem ok_bind {α β : Type} (a : α) (next : α → Except Fault β) : (Except.ok a >>= next) = next a :=
  rfl

/-- A walk is one move after the other. -/
theorem walk_cons (fs : FileSystem) (links : Nat) (location : Location) (step : Step)
    (steps : List Step) :
    fs.walk false links location (step :: steps) =
      (fs.move links location step).bind fun (left, next, more) =>
        fs.walk false left next (more ++ steps) := by
  cases hstand : fs.standing location with
  | error fault => cases links <;> cases step <;> simp only [walk, walkWith, move, hstand] <;> rfl
  | ok inside =>
    cases step with
    | stay | up => cases links <;> simp only [walk, walkWith, move, hstand] <;> rfl
    | enter n =>
      by_cases hlong : longestName < n.bytes.length
      · cases links <;> simp only [walk, walkWith, move, hstand, ok_bind, if_pos hlong] <;> rfl
      · cases hfind : inside.find? n with
        | none =>
          cases links <;>
            simp only [walk, walkWith, move, hstand, ok_bind, hfind, if_neg hlong] <;> rfl
        | some e =>
          cases e <;> cases links <;>
            simp only [walk, walkWith, move, hstand, ok_bind, hfind, if_neg hlong] <;> rfl

/-- What a move can do: it stands in a directory, and either goes on by the step itself or, where the
step names a link, takes one from the links and goes on with the steps of the target. -/
theorem move_eq_ok {next : Location} (h : fs.move links location step = .ok (left, next, more)) :
    ∃ inside, fs.listing? location = some inside ∧
      ((left = links ∧ more = [] ∧
        (step = .stay ∧ next = location ∨ step = .up ∧ next = location.dropLast ∨
          ∃ n e, step = .enter n ∧ inside.find? n = some e ∧ e.isLink = false ∧
            next = location ++ [n])) ∨
      ∃ n target, step = .enter n ∧ inside.find? n = some (.link target) ∧ links = left + 1 ∧
        next = (if target.isAbsolute then [] else location) ∧ more = target.steps) := by
  unfold move at h
  split at h
  · cases h
  · next inside hstand =>
    cases h
    exact ⟨inside, standing_eq_ok.mp hstand, .inl ⟨rfl, rfl, .inl ⟨rfl, rfl⟩⟩⟩
  · next inside hstand =>
    cases h
    exact ⟨inside, standing_eq_ok.mp hstand, .inl ⟨rfl, rfl, .inr (.inl ⟨rfl, rfl⟩)⟩⟩
  · next inside n hstand =>
    refine ⟨inside, standing_eq_ok.mp hstand, ?_⟩
    split at h
    · cases h
    · cases hfind : inside.find? n with
      | none => rw [hfind] at h; cases h
      | some e =>
        rw [hfind] at h
        cases e with
        | file _ | dir _ => cases h; exact .inl ⟨rfl, rfl, .inr (.inr ⟨n, _, rfl, hfind, rfl, rfl⟩)⟩
        | link target =>
          cases links with
          | zero => cases h
          | succ left => cases h; exact .inr ⟨n, target, rfl, hfind, rfl, rfl, rfl⟩

/-- A name that is entered is not too long. -/
theorem short_of_move {n : Name} {next : Location}
    (h : fs.move links location (.enter n) = .ok (left, next, more)) :
    n.bytes.length ≤ longestName := by
  by_contra hlong
  unfold move at h
  split at h
  · cases h
  · next hstep => cases hstep
  · next hstep => cases hstep
  · next hstep =>
    cases hstep
    rw [if_pos (Nat.not_le.mp hlong)] at h
    cases h

/-- Links that are to spare change nothing but their number, unless there were too few. -/
theorem move_add (spare : Nat) :
    (∀ {left next more}, fs.move links location step = .ok (left, next, more) →
      fs.move (links + spare) location step = .ok (left + spare, next, more)) ∧
    ∀ {fault}, fs.move links location step = .error fault → fault ≠ .tooManyLinks →
      fs.move (links + spare) location step = .error fault := by
  unfold move
  split
  · exact ⟨nofun, fun h _ => h⟩
  · exact ⟨fun h => by cases h; rfl, nofun⟩
  · exact ⟨fun h => by cases h; rfl, nofun⟩
  · next inside n hstand =>
    split
    · exact ⟨nofun, fun h _ => h⟩
    · cases inside.find? n with
      | none => exact ⟨nofun, fun h _ => h⟩
      | some e =>
        cases e with
        | file _ | dir _ => exact ⟨fun h => by cases h; rfl, nofun⟩
        | link target =>
          cases links with
          | zero => exact ⟨nofun, fun h hne => absurd (Except.error.inj h).symm hne⟩
          | succ links =>
            rw [Nat.add_right_comm]
            exact ⟨fun h => by cases h; rfl, nofun⟩

/-! ## Whole walks -/

/-- What holds of a walk as soon as it holds behind its first move, holds of every walk. -/
theorem walk_induction (fs : FileSystem) {motive : Nat → Location → List Step → Prop}
    (done : ∀ links location, motive links location [])
    (go : ∀ links location step steps,
      (∀ left next more, fs.move links location step = .ok (left, next, more) →
        motive left next (more ++ steps)) → motive links location (step :: steps))
    (links : Nat) (location : Location) (steps : List Step) : motive links location steps := by
  -- Following a link may put steps in front, but takes a link; every other move takes a step.
  induction links using Nat.strongRecOn generalizing location steps with
  | _ links ihLinks =>
    induction steps generalizing location with
    | nil => exact done links location
    | cons step steps ihSteps =>
      refine go links location step steps fun left next more hmove => ?_
      obtain ⟨_, _, ⟨rfl, rfl, _⟩ | ⟨_, _, _, _, rfl, _⟩⟩ := move_eq_ok hmove
      · exact ihSteps next
      · exact ihLinks left (Nat.lt_succ_self left) next (more ++ steps)

/-- How a walk goes on: it ends at its first move, or does what the walk behind that does. -/
theorem walk_cons_eq (fs : FileSystem) (links : Nat) (location : Location) (step : Step)
    (steps : List Step) :
    (∃ fault, fs.move links location step = .error fault ∧
      fs.walk false links location (step :: steps) = .error fault) ∨
    ∃ left next more, fs.move links location step = .ok (left, next, more) ∧
      fs.walk false links location (step :: steps) = fs.walk false left next (more ++ steps) := by
  rw [walk_cons]
  cases hmove : fs.move links location step with
  | error fault => exact .inl ⟨fault, rfl, rfl⟩
  | ok moved => exact .inr ⟨moved.1, moved.2.1, moved.2.2, rfl, rfl⟩

/-- A walk that finds something goes on behind its first move. -/
theorem walk_cons_eq_ok (h : fs.walk false links location (step :: steps) = .ok found) :
    ∃ left next more, fs.move links location step = .ok (left, next, more) ∧
      fs.walk false left next (more ++ steps) = .ok found := by
  obtain ⟨fault, -, hwalk⟩ | ⟨left, next, more, hmove, hwalk⟩ :=
    walk_cons_eq fs links location step steps
  · rw [hwalk] at h
    cases h
  · exact ⟨left, next, more, hmove, hwalk.symm.trans h⟩

theorem walk_nil : fs.walk false links location [] = .ok location := by
  cases links <;> rfl

/-- Staying in a directory changes nothing. -/
theorem walk_stay {inside : Listing} (h : fs.listing? location = some inside) (rest : List Step) :
    fs.walk false links location (.stay :: rest) = fs.walk false links location rest := by
  have hmove : fs.move links location .stay = .ok (links, location, []) := by
    unfold move
    rw [standing_eq_ok.mpr h]
  rw [walk_cons, hmove]
  rfl

/-- Entering a name of the directory that is no link leads one down. -/
theorem walk_enter {inside : Listing} {n : Name} {e : Entry} (h : fs.listing? location = some inside)
    (hfind : inside.find? n = some e) (hlink : e.isLink = false)
    (hshort : n.bytes.length ≤ longestName) (rest : List Step) :
    fs.walk false links location (.enter n :: rest) =
      fs.walk false links (location ++ [n]) rest := by
  have hmove : fs.move links location (.enter n) = .ok (links, location ++ [n], []) := by
    unfold move
    rw [standing_eq_ok.mpr h]
    simp only [if_neg (Nat.not_lt.mpr hshort), hfind]
    cases e with
    | link target => cases hlink
    | file _ | dir _ => rfl
  rw [walk_cons, hmove]
  rfl

/-- A walk goes on from where its first part has ended, with the links that this has left. More links
to follow are so many more that are left. -/
theorem walk_append_add (h : fs.walk false links location steps = .ok mid) :
    ∃ left ≤ links, ∀ spare rest,
      fs.walk false (links + spare) location (steps ++ rest) =
        fs.walk false (left + spare) mid rest := by
  induction links, location, steps using walk_induction fs with
  | done links location =>
    rw [walk_nil, Except.ok.injEq] at h
    exact ⟨links, Nat.le_refl _, fun spare rest => by rw [h, List.nil_append]⟩
  | go links location step steps ih =>
    obtain ⟨left, next, more, hmove, hwalk⟩ := walk_cons_eq_ok h
    obtain ⟨fewer, hfewer, hrest⟩ := ih left next more hmove hwalk
    have hleft : left ≤ links := by
      obtain ⟨_, _, ⟨hleft, _⟩ | ⟨_, _, _, _, hleft, _⟩⟩ := move_eq_ok hmove <;> omega
    refine ⟨fewer, Nat.le_trans hfewer hleft, fun spare rest => ?_⟩
    rw [List.cons_append, walk_cons, (move_add spare).1 hmove]
    simpa [Except.bind, List.append_assoc] using hrest spare rest

theorem walk_append (h : fs.walk false links location steps = .ok mid) :
    ∃ left ≤ links, ∀ rest,
      fs.walk false links location (steps ++ rest) = fs.walk false left mid rest := by
  obtain ⟨left, hleft, hrest⟩ := walk_append_add h
  exact ⟨left, hleft, hrest 0⟩

/-- A walk does not get further than its first part. -/
theorem walk_append_error (h : fs.walk false links location steps = .error fault)
    (rest : List Step) : fs.walk false links location (steps ++ rest) = .error fault := by
  induction links, location, steps using walk_induction fs with
  | done links location => rw [walk_nil] at h; cases h
  | go links location step steps ih =>
    obtain ⟨fault', hmove, hwalk⟩ | ⟨left, next, more, hmove, hwalk⟩ :=
      walk_cons_eq fs links location step steps
    · rw [hwalk] at h
      rw [List.cons_append, walk_cons, hmove]
      exact h
    · rw [hwalk] at h
      rw [List.cons_append, walk_cons, hmove]
      simpa [Except.bind, List.append_assoc] using ih left next more hmove h

/-- How a walk ends does not depend on how many links it may follow, unless it gives up for too many
of them. -/
theorem walk_mono {result : Except Fault Location}
    (h : fs.walk false links location steps = result) (hgo : result ≠ .error .tooManyLinks)
    (spare : Nat) : fs.walk false (links + spare) location steps = result := by
  induction links, location, steps using walk_induction fs with
  | done links location => rwa [walk_nil] at h ⊢
  | go links location step steps ih =>
    obtain ⟨fault, hmove, hwalk⟩ | ⟨left, next, more, hmove, hwalk⟩ :=
      walk_cons_eq fs links location step steps
    · have hfault : fault ≠ .tooManyLinks := fun heq => hgo (by rw [← h, hwalk, heq])
      rw [walk_cons, (move_add spare).2 hmove hfault, ← h, hwalk]
      rfl
    · rw [walk_cons, (move_add spare).1 hmove]
      exact ih left next more hmove (hwalk ▸ h)

/-- What a walk finds is real, if it sets out from something real. -/
theorem real_of_walk (hreal : fs.Real location)
    (h : fs.walk false links location steps = .ok found) : fs.Real found := by
  induction links, location, steps using walk_induction fs with
  | done links location =>
    rw [walk_nil, Except.ok.injEq] at h
    exact h ▸ hreal
  | go links location step steps ih =>
    obtain ⟨left, next, more, hmove, hwalk⟩ := walk_cons_eq_ok h
    refine ih left next more hmove ?_ hwalk
    obtain ⟨inside, hinside, hnext⟩ := move_eq_ok hmove
    rcases hnext with ⟨-, -, ⟨-, rfl⟩ | ⟨-, rfl⟩ | ⟨n, e, -, hfind, hlink, rfl⟩⟩ |
      ⟨-, target, -, -, -, rfl, -⟩
    · exact hreal
    · exact hreal.of_prefix (List.dropLast_prefix location)
    · exact ⟨e, (entry?_concat hinside n).trans hfind, hlink⟩
    · -- A link is followed from the top or from the directory that it is in.
      split
      · exact real_nil fs
      · exact hreal

/-- A walk that sets out at all does so from a directory. -/
theorem exists_listing?_of_walk_cons
    (h : fs.walk false links location (step :: steps) = .ok found) :
    ∃ inside, fs.listing? location = some inside := by
  obtain ⟨_, _, _, hmove, -⟩ := walk_cons_eq_ok h
  obtain ⟨inside, hinside, -⟩ := move_eq_ok hmove
  exact ⟨inside, hinside⟩

/-- A name that is entered is there, and the walk goes on from it if it is no link. -/
theorem exists_find?_of_walk_enter {n : Name}
    (h : fs.walk false links location (.enter n :: steps) = .ok found) :
    n.bytes.length ≤ longestName ∧ ∃ inside e, fs.listing? location = some inside ∧
      inside.find? n = some e ∧
        (e.isLink = false → fs.walk false links (location ++ [n]) steps = .ok found) := by
  obtain ⟨left, next, more, hmove, hgoes⟩ := walk_cons_eq_ok h
  refine ⟨short_of_move hmove, ?_⟩
  obtain ⟨inside, hinside, hnext⟩ := move_eq_ok hmove
  rcases hnext with ⟨rfl, rfl, ⟨hstep, -⟩ | ⟨hstep, -⟩ | ⟨m, e, hstep, hfind, -, rfl⟩⟩ |
    ⟨m, target, hstep, hfind, -⟩
  · cases hstep
  · cases hstep
  · cases hstep
    exact ⟨inside, e, hinside, hfind, fun _ => hgoes⟩
  · cases hstep
    exact ⟨inside, _, hinside, hfind, nofun⟩

/-- Through real directories a walk follows no link. -/
theorem walk_append_of_real (hreal : fs.Real (location ++ names))
    (h : fs.walk false links location (names.map .enter) = .ok found) (rest : List Step) :
    fs.walk false links location (names.map .enter ++ rest) =
      fs.walk false links (location ++ names) rest := by
  induction names generalizing location with
  | nil => simp
  | cons n names ih =>
    have hhere : fs.Real (location ++ [n]) := hreal.of_prefix ⟨names, by simp⟩
    obtain ⟨left, next, more, hmove, hwalk⟩ := walk_cons_eq_ok h
    obtain ⟨inside, hinside, hnext⟩ := move_eq_ok hmove
    obtain ⟨e, he, hlink⟩ := hhere
    rw [entry?_concat hinside] at he
    rcases hnext with ⟨rfl, rfl, ⟨hstep, -⟩ | ⟨hstep, -⟩ | ⟨m, e', hstep, -, -, rfl⟩⟩ |
      ⟨m, target, hstep, hfind, -⟩
    · cases hstep
    · cases hstep
    · cases hstep
      have hrest := ih (by simpa using hreal) hwalk
      rw [List.map_cons, List.cons_append, walk_cons, hmove]
      simpa [Except.bind] using hrest
    · -- The entry of that name is real, and so no link.
      cases hstep
      rw [he, Option.some.injEq] at hfind
      rw [hfind] at hlink
      cases hlink

theorem walk_of_real (hreal : fs.Real (location ++ names))
    (h : fs.walk false links location (names.map .enter ++ steps) = .ok found) :
    fs.walk false links (location ++ names) steps = .ok found := by
  cases hfirst : fs.walk false links location (names.map .enter) with
  | error fault =>
    rw [walk_append_error hfirst] at h
    cases h
  | ok mid => rw [← walk_append_of_real hreal hfirst, h]

/-! ## Paths of locations -/

/-- A path leads somewhere when the system can be asked about it and a walk along its steps gets there. -/
theorem resolve_eq_ok_iff {p : Path} :
    fs.resolve cwd p = .ok found ↔ p.bytes ≠ [] ∧ 0 ∉ p.bytes ∧
      fs.walk false mostLinks (if p.isAbsolute then [] else cwd) p.steps = .ok found := by
  rw [resolve, locate]
  split
  · next hnil => simp [hnil]
  · next hne =>
    split
    · next hnul => simp [hnul]
    · next hclean => simp [hne, hclean]

/-- The path of a location leads where its names do, one after the other from the top. -/
theorem resolve_ofLocation (fs : FileSystem) (cwd location : Location) :
    fs.resolve cwd (.ofLocation location) =
      if 0 ∈ (Path.ofLocation location).bytes then .error .nulByte
      else fs.walk false mostLinks [] (location.map .enter) := by
  have hne : (Path.ofLocation location).bytes ≠ [] := List.cons_ne_nil _ _
  have htop : fs.listing? [] = some fs.top := rfl
  rw [resolve, locate, if_neg hne, if_pos (Path.isAbsolute_ofLocation location)]
  by_cases hnil : location = []
  · have hsteps : (Path.ofLocation []).steps = [.stay, .stay] := by decide
    rw [hnil, hsteps, walk_stay htop, walk_stay htop]
    rfl
  · rw [Path.steps_ofLocation hnil, walk_stay htop]

/-- What a path leads to is real. -/
theorem real_of_resolve {p : Path} (h : fs.resolve cwd p = .ok found) : fs.Real found := by
  obtain ⟨-, -, hwalk⟩ := resolve_eq_ok_iff.mp h
  obtain ⟨step, steps, hsteps⟩ := List.exists_cons_of_ne_nil p.steps_ne_nil
  rw [hsteps] at hwalk
  obtain ⟨inside, hinside⟩ := exists_listing?_of_walk_cons hwalk
  exact real_of_walk (real_of_listing? hinside) hwalk

/-- The path of something real leads there, if it leads anywhere. -/
theorem eq_of_resolve_ofLocation (hreal : fs.Real location)
    (h : fs.resolve cwd (.ofLocation location) = .ok found) : found = location := by
  rw [resolve_ofLocation] at h
  split at h
  · cases h
  · rw [← List.append_nil (location.map Step.enter)] at h
    have htop : fs.Real ([] ++ location) := hreal
    have hwalk := walk_of_real htop h
    rw [walk_nil, Except.ok.injEq] at hwalk
    exact hwalk.symm

/-- When the path of an entry leads somewhere, so does that of everything above it. -/
theorem exists_resolve_of_append (h : fs.resolve cwd (.ofLocation (location ++ names)) = .ok found) :
    ∃ above, fs.resolve cwd (.ofLocation location) = .ok above ∧
      ∃ left ≤ mostLinks, fs.walk false left above (names.map .enter) = .ok found := by
  rw [resolve_ofLocation] at h ⊢
  have hnul : 0 ∈ (Path.ofLocation location).bytes → 0 ∈ (Path.ofLocation (location ++ names)).bytes := by
    rw [Path.nul_mem_ofLocation, Path.nul_mem_ofLocation]
    exact fun ⟨n, hn, h0⟩ => ⟨n, List.mem_append_left _ hn, h0⟩
  split at h
  · cases h
  · next hclean =>
    rw [if_neg fun h0 => hclean (hnul h0)]
    rw [List.map_append] at h
    cases hfirst : fs.walk false mostLinks [] (location.map .enter) with
    | error fault =>
      rw [walk_append_error hfirst] at h
      cases h
    | ok above =>
      obtain ⟨left, hleft, hrest⟩ := walk_append hfirst
      exact ⟨above, rfl, left, hleft, (hrest _).symm.trans h⟩

/-- An entry of a directory whose path leads somewhere is there. -/
theorem exists_find?_of_resolve {inside : Listing} {n : Name}
    (hinside : fs.listing? location = some inside)
    (h : fs.resolve cwd (.ofLocation (location ++ [n])) = .ok found) :
    ∃ e, inside.find? n = some e := by
  obtain ⟨above, habove, left, -, hwalk⟩ := exists_resolve_of_append h
  obtain rfl := eq_of_resolve_ofLocation (real_of_listing? hinside) habove
  obtain ⟨-, inside', e, hinside', hfind, -⟩ := exists_find?_of_walk_enter hwalk
  obtain rfl : inside = inside' := Option.some.inj (hinside.symm.trans hinside')
  exact ⟨e, hfind⟩

/-- However many links may be followed, the names lead to no end. -/
def Circles (fs : FileSystem) (names : Location) : Prop :=
  ∀ links, fs.walk false links [] (names.map .enter) = .error .tooManyLinks

/-- Names lead from a path to what they lead to from its canonical form, unless that follows too many
links. Still they do not go round in a circle. -/
theorem resolve_append_of_resolve (h : fs.resolve cwd (.ofLocation location) = .ok mid)
    (hfound : fs.resolve cwd (.ofLocation (mid ++ names)) = .ok found) :
    fs.resolve cwd (.ofLocation (location ++ names)) = .ok found ∨
      fs.resolve cwd (.ofLocation (location ++ names)) = .error .tooManyLinks ∧
        ¬fs.Circles (location ++ names) := by
  have hreal := real_of_resolve h
  rw [resolve_ofLocation] at h hfound ⊢
  split at h
  · cases h
  · next hfront =>
    split at hfound
    · cases hfound
    · next hback =>
      rw [Path.nul_mem_ofLocation] at hfront hback
      have hclean : ¬0 ∈ (Path.ofLocation (location ++ names)).bytes := by
        rw [Path.nul_mem_ofLocation]
        rintro ⟨n, hn, h0⟩
        rcases List.mem_append.mp hn with hn | hn
        · exact hfront ⟨n, hn, h0⟩
        · exact hback ⟨n, List.mem_append_right _ hn, h0⟩
      rw [List.map_append] at hfound
      have htop : fs.Real ([] ++ mid) := hreal
      have hcanonical := walk_of_real htop hfound
      obtain ⟨left, hleft, hrest⟩ := walk_append_add h
      have henough : left + (mostLinks - left) = mostLinks := by omega
      rw [if_neg hclean, Circles, List.map_append]
      have hfirst := hrest 0 (names.map .enter)
      rw [Nat.add_zero, Nat.add_zero] at hfirst
      rw [hfirst]
      -- From the canonical form the same names are followed with all links, here with what is left.
      by_cases hmany : fs.walk false left mid (names.map .enter) = .error .tooManyLinks
      · refine .inr ⟨hmany, fun hcircles => ?_⟩
        have hmore := hcircles (mostLinks + (mostLinks - left))
        rw [hrest, henough, ← List.nil_append mid, hcanonical] at hmore
        cases hmore
      · have hmono := walk_mono rfl hmany (mostLinks - left)
        rw [henough, ← List.nil_append mid, hcanonical] at hmono
        exact .inl hmono.symm

end FileSystem

end IgnoreAtlas
