import IgnoreAtlas.Proofs.FileSystem.Likeness

/-!
# Writing a file

A path is followed to the place of a file as a walk follows it, link by link, but for the last name,
which need not be there (`spot_cons`, `spot_enter`). So a file that does not exist is put into the
directory that the rest of its path leads to (`eq_putFile_of_write`), and what has been written to a
path is read from it, whatever links are on the way (`read_of_write`).
-/

namespace IgnoreAtlas.FileSystem

variable {fs other files : FileSystem} {links left : Nat} {cwd location next above start : Location}
  {inside : Listing} {p : Path} {step : Step} {steps more front : List Step} {n m : Name}
  {content : Content} {fault : Fault}

/-! ## The way to a file -/

/-- Where steps follow, the way to a file is one move after the other. -/
theorem spot_cons (hsteps : steps ≠ []) :
    fs.spot links location (step :: steps) =
      (fs.move links location step).bind fun (left, next, more) =>
        fs.spot left next (more ++ steps) := by
  have hempty : steps.isEmpty = false := by simpa using hsteps
  cases hstand : fs.standing location with
  | error fault => cases links <;> cases step <;> simp only [spot, spotWith, move, hstand] <;> rfl
  | ok inside =>
    cases step with
    | stay | up => cases links <;> simp only [spot, spotWith, move, hstand] <;> rfl
    | enter n =>
      by_cases hlong : longestName < n.bytes.length
      · cases links <;> simp only [spot, spotWith, move, hstand, ok_bind, if_pos hlong] <;> rfl
      · cases hfind : inside.find? n with
        | none =>
          cases links <;>
            simp only [spot, spotWith, move, hstand, ok_bind, hfind, if_neg hlong, hempty] <;> rfl
        | some e =>
          cases e <;> cases links <;>
            simp only [spot, spotWith, move, hstand, ok_bind, hfind, if_neg hlong, hempty] <;> rfl

/-- The last name is the place, unless it is too long or a link, which is followed. -/
theorem spot_enter (h : fs.listing? location = some inside) :
    fs.spot links location [.enter n] =
      if longestName < n.bytes.length then .error .nameTooLong
      else
        match inside.find? n, links with
        | some (.link _), 0 => .error .tooManyLinks
        | some (.link target), left + 1 =>
          fs.spot left (if target.isAbsolute then [] else location) target.steps
        | _, _ => .ok (location, n) := by
  by_cases hlong : longestName < n.bytes.length
  · cases links <;>
      simp only [spot, spotWith, standing_eq_ok.mpr h, ok_bind, if_pos hlong] <;> rfl
  · cases hfind : inside.find? n with
    | none =>
      cases links <;>
        simp only [spot, spotWith, standing_eq_ok.mpr h, ok_bind, hfind, if_neg hlong] <;> rfl
    | some e =>
      cases e <;> cases links <;>
        simp only [spot, spotWith, standing_eq_ok.mpr h, ok_bind, hfind, if_neg hlong,
          List.append_nil] <;> rfl

/-- The last step enters the name of the file, or it is one more move. -/
theorem spot_cons_eq_ok (h : fs.spot links location (step :: steps) = .ok (above, n)) :
    (steps = [] ∧ step = .enter n ∧ above = location ∧ n.bytes.length ≤ longestName ∧
      ∃ inside, fs.listing? location = some inside ∧
        ∀ target, inside.find? n ≠ some (.link target)) ∨
    ∃ left next more, fs.move links location step = .ok (left, next, more) ∧
      fs.spot left next (more ++ steps) = .ok (above, n) := by
  by_cases hsteps : steps = []
  · subst hsteps
    cases hstand : fs.standing location with
    | error fault => cases links <;> cases step <;> simp [spot, spotWith, hstand] at h <;> cases h
    | ok inside =>
      cases step with
      | stay | up =>
        cases links <;> simp only [spot, spotWith, hstand, ok_bind] at h <;> cases h
      | enter m =>
        have hinside := standing_eq_ok.mp hstand
        rw [spot_enter hinside] at h
        split at h
        · cases h
        · next hshort =>
          split at h
          · cases h
          · next target left hfind =>
            refine .inr ⟨left, _, target.steps, ?_, (List.append_nil target.steps).symm ▸ h⟩
            simp only [move, hstand, hfind, if_neg hshort]
          · next hzero hmore =>
            cases h
            refine .inl ⟨rfl, rfl, rfl, Nat.not_lt.mp hshort, inside, hinside, ?_⟩
            intro target hlink
            have hlinks := hzero target hlink
            exact hmore target _ hlink (Nat.succ_pred_eq_of_ne_zero hlinks).symm
  · rw [spot_cons hsteps] at h
    cases hmove : fs.move links location step with
    | error fault => rw [hmove] at h; cases h
    | ok moved => rw [hmove] at h; exact .inr ⟨moved.1, moved.2.1, moved.2.2, rfl, h⟩

/-- A name that is not there yet is put where the steps before it lead to. -/
theorem spot_concat (hfront : fs.walk false links start front = .ok location)
    (hinside : fs.listing? location = some inside) (hnew : inside.find? n = none) :
    fs.spot links start (front ++ [.enter n]) =
      if longestName < n.bytes.length then .error .nameTooLong else .ok (location, n) := by
  induction links, start, front using walk_induction fs with
  | done links start =>
    rw [walk_nil, Except.ok.injEq] at hfront
    subst hfront
    rw [List.nil_append, spot_enter hinside, hnew]
  | go links start step steps ih =>
    obtain ⟨left, next, more, hmove, hwalk⟩ := walk_cons_eq_ok hfront
    rw [List.cons_append, spot_cons (by simp), hmove]
    have hrest := ih left next more hmove hwalk
    rw [List.append_assoc] at hrest
    exact hrest

/-- The place of a file is a name of a directory, and what is there is no link. -/
theorem exists_listing?_of_spot (h : fs.spot links location steps = .ok (above, n)) :
    ∃ inside, fs.listing? above = some inside ∧ ∀ target, inside.find? n ≠ some (.link target) := by
  induction links, location, steps using walk_induction fs with
  | done links location => cases links <;> cases h
  | go links location step steps ih =>
    obtain ⟨-, -, rfl, -, hinside⟩ | ⟨left, next, more, hmove, hspot⟩ := spot_cons_eq_ok h
    · exact hinside
    · exact ih left next more hmove hspot

/-- A walk finds the file as soon as it is there, if everything else is as it was. -/
theorem walk_of_spot (h : fs.spot links location steps = .ok (above, n)) (hwithin : fs.Within other)
    (hthere : other.entry? (above ++ [n]) = some (.file content)) :
    other.walk false links location steps = .ok (above ++ [n]) := by
  induction links, location, steps using walk_induction fs with
  | done links location => cases links <;> cases h
  | go links location step steps ih =>
    obtain ⟨rfl, rfl, rfl, hshort, inside, hinside, -⟩ | ⟨left, next, more, hmove, hspot⟩ :=
      spot_cons_eq_ok h
    · obtain ⟨inside', hinside', -⟩ := hwithin.listing? hinside
      rw [entry?_concat hinside'] at hthere
      rw [walk_enter hinside' hthere rfl hshort, walk_nil]
    · rw [walk_cons, move_of_within hwithin hmove]
      exact ih left next more hmove hspot

/-! ## What has been written -/

theorem bind_throw_ne_ok {α β : Type} (first : Except Fault α) (b : β) :
    (first >>= fun _ => throw fault) ≠ .ok b := by
  cases first <;> exact nofun

/-- Only a path that ends with a name is written to: the file goes to the place of that name, where
no directory may stand. -/
theorem exists_spot_of_write (h : fs.write cwd p content = .ok files) :
    p.bytes ≠ [] ∧ 0 ∉ p.bytes ∧ (∃ front n, p.steps = front ++ [.enter n]) ∧
      ∃ above n inside, fs.spot mostLinks (startOf cwd p) p.steps = .ok (above, n) ∧
        fs.listing? above = some inside ∧ (∀ within, inside.find? n ≠ some (.dir within)) ∧
        files = fs.putFile above n content := by
  unfold write checkSpelling at h
  split at h
  · cases h
  · next hne =>
    split at h
    · cases h
    · next hclean =>
      rw [ok_bind] at h
      simp only at h
      split at h
      · exact absurd h (bind_throw_ne_ok _ _)
      · split at h
        · next m hlast =>
          obtain ⟨front, hsteps⟩ := List.getLast?_eq_some_iff.mp hlast
          refine ⟨hne, hclean, ⟨front, m, hsteps⟩, ?_⟩
          cases hspot : fs.spot mostLinks (startOf cwd p) p.steps with
          | error fault => rw [hspot] at h; cases h
          | ok spotted =>
            obtain ⟨above, n⟩ := spotted
            obtain ⟨inside, hinside, -⟩ := exists_listing?_of_spot hspot
            rw [hspot, ok_bind] at h
            simp only [standing_eq_ok.mpr hinside, ok_bind] at h
            split at h
            · cases h
            · next hno =>
              cases h
              exact ⟨above, n, inside, rfl, hinside, hno, rfl⟩
        · exact absurd h (bind_throw_ne_ok _ _)

/-- What writing a file that does not exist comes to. -/
theorem eq_putFile_of_write (h : fs.write cwd p content = .ok files)
    (hsteps : p.steps = front ++ [.enter n])
    (hfront : fs.walk false mostLinks (startOf cwd p) front = .ok location)
    (hinside : fs.listing? location = some inside) (hnew : inside.find? n = none) :
    n.bytes.length ≤ longestName ∧ files = fs.putFile location n content := by
  obtain ⟨-, -, -, above, m, -, hspot, -, -, rfl⟩ := exists_spot_of_write h
  rw [hsteps, spot_concat hfront hinside hnew] at hspot
  split at hspot
  · cases hspot
  · next hshort =>
    cases hspot
    exact ⟨Nat.not_lt.mp hshort, rfl⟩

/-- What has been written is read. -/
theorem read_of_write (h : fs.write cwd p content = .ok files) :
    files.read cwd p = .ok content := by
  obtain ⟨hne, hclean, -, above, n, inside, hspot, hinside, hdir, rfl⟩ := exists_spot_of_write h
  obtain ⟨inside', hinside', hlink⟩ := exists_listing?_of_spot hspot
  obtain rfl : inside = inside' := Option.some_inj.mp (hinside.symm.trans hinside')
  have hfile : ∀ e, inside.find? n = some e → ∃ held, e = .file held := by
    intro e hfind
    cases e with
    | file held => exact ⟨held, rfl⟩
    | dir within => exact absurd hfind (hdir within)
    | link target => exact absurd hfind (hlink target)
  have hthere : FileSystem.entry? (fs.putFile above n content) (above ++ [n]) =
      some (.file content) := entry?_putFile_self hinside
  have hresolve : FileSystem.resolve (fs.putFile above n content) cwd p = .ok (above ++ [n]) :=
    resolve_eq_ok_iff.mpr ⟨hne, hclean, walk_of_spot hspot (within_putFile hinside hfile) hthere⟩
  simp only [read, hresolve, ok_bind, hthere]
  rfl

end IgnoreAtlas.FileSystem
