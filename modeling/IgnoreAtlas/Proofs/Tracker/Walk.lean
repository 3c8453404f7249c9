import IgnoreAtlas.Proofs.FileSystem.Entries
import IgnoreAtlas.Proofs.Path.Components
import IgnoreAtlas.Tracker.Scan
import Mathlib.Data.List.Infix

/-!
# What a walk comes to

A walk goes down a listing with a chain of rules that grows as it goes. Seen from the root, it comes
to the entries that it passes over neither themselves nor in a directory above them
(`mem_reached_iff`), where the rules for an entry are those of the directories above it,
`Job.rulesAt`, however the walk got there. It comes to them in an order that puts nothing behind what
is inside it (`reached_pairwise`).
-/

namespace IgnoreAtlas.Scan.Job

/-! ## Down a listing -/

/-- The walk comes to an entry of a listing. `above` are the names that lead to the listing, `chain`
are its rules. -/
inductive Reaches (job : Job) : Chain → List Name → Listing → List Name → Prop
  | entry {chain : Chain} {above : List Name} {l : Listing} {n : Name} {e : Entry} :
      l.find? n = some e → job.skips chain (above ++ [n]) e.isDir = false →
      Reaches job chain above l [n]
  | inside {chain : Chain} {above : List Name} {l m : Listing} {n : Name} {names : List Name} :
      l.find? n = some (.dir m) → job.skips chain (above ++ [n]) true = false →
      Reaches job (job.enter chain (above ++ [n]) m) (above ++ [n]) m names →
      Reaches job chain above l (n :: names)

variable {job : Job} {chain : Chain} {above names : List Name}

/-- What is come to has a name of the listing in front. -/
theorem Reaches.exists_cons {l : Listing} (h : job.Reaches chain above l names) :
    ∃ n rest, names = n :: rest ∧ n ∈ l.names := by
  cases h with
  | entry hfind _ => exact ⟨_, [], rfl, Listing.mem_names_of_find? hfind⟩
  | inside hfind _ _ => exact ⟨_, _, rfl, Listing.mem_names_of_find? hfind⟩

/-- The walk comes to an entry of a listing, or into a directory among them. -/
theorem reaches_iff_exists {l : Listing} :
    job.Reaches chain above l names ↔
      ∃ n e, l.find? n = some e ∧ job.skips chain (above ++ [n]) e.isDir = false ∧
        (names = [n] ∨ ∃ m more, e = .dir m ∧ names = n :: more ∧
          job.Reaches (job.enter chain (above ++ [n]) m) (above ++ [n]) m more) := by
  constructor
  · intro h
    cases h with
    | entry hfind hskip => exact ⟨_, _, hfind, hskip, .inl rfl⟩
    | inside hfind hskip hmore => exact ⟨_, _, hfind, hskip, .inr ⟨_, _, rfl, rfl, hmore⟩⟩
  · rintro ⟨n, e, hfind, hskip, rfl | ⟨m, more, rfl, rfl, hmore⟩⟩
    · exact .entry hfind hskip
    · exact .inside hfind hskip hmore

/-- A listing with one more entry in front: the walk comes to that entry, into it, or to the rest. -/
theorem reaches_cons_iff {n : Name} {e : Entry} {rest : Listing} (hn : n ∉ rest.names) :
    job.Reaches chain above (.cons n e rest) names ↔
      (job.skips chain (above ++ [n]) e.isDir = false ∧
        (names = [n] ∨ ∃ m more, e = .dir m ∧ names = n :: more ∧
          job.Reaches (job.enter chain (above ++ [n]) m) (above ++ [n]) m more)) ∨
      job.Reaches chain above rest names := by
  rw [reaches_iff_exists, Listing.exists_find?_cons_iff hn, ← reaches_iff_exists]

/-- The same for names that begin above the listing. -/
theorem exists_reaches_cons_iff {n : Name} {e : Entry} {rest : Listing} (hn : n ∉ rest.names) :
    (∃ tail, names = above ++ tail ∧ job.Reaches chain above (.cons n e rest) tail) ↔
      (job.skips chain (above ++ [n]) e.isDir = false ∧
        (names = above ++ [n] ∨ ∃ m, e = .dir m ∧ ∃ more, names = above ++ [n] ++ more ∧
          job.Reaches (job.enter chain (above ++ [n]) m) (above ++ [n]) m more)) ∨
      ∃ tail, names = above ++ tail ∧ job.Reaches chain above rest tail := by
  simp only [reaches_cons_iff hn, List.append_assoc, List.singleton_append]
  constructor
  · rintro ⟨tail, rfl, ⟨hskip, rfl | ⟨m, more, rfl, rfl, hmore⟩⟩ | h⟩
    · exact .inl ⟨hskip, .inl rfl⟩
    · exact .inl ⟨hskip, .inr ⟨m, rfl, more, rfl, hmore⟩⟩
    · exact .inr ⟨tail, rfl, h⟩
  · rintro (⟨hskip, rfl | ⟨m, rfl, more, rfl, hmore⟩⟩ | ⟨tail, rfl, h⟩)
    · exact ⟨[n], rfl, .inl ⟨hskip, .inl rfl⟩⟩
    · exact ⟨n :: more, rfl, .inl ⟨hskip, .inr ⟨m, more, rfl, rfl, hmore⟩⟩⟩
    · exact ⟨tail, rfl, .inr h⟩

/-- The walk down a listing comes to what `Reaches` says, and to nothing else. -/
theorem mem_walkFrom_iff {l : Listing} (hl : l.Distinct) :
    names ∈ job.walkFrom chain above l ↔
      ∃ tail, names = above ++ tail ∧ job.Reaches chain above l tail := by
  induction l generalizing chain above names with
  | empty =>
    refine ⟨nofun, fun ⟨tail, _, h⟩ => ?_⟩
    obtain ⟨_, _, _, hn⟩ := h.exists_cons
    exact absurd hn List.not_mem_nil
  | file n content rest ih =>
    refine Iff.trans ?_ (exists_reaches_cons_iff (e := .file content) hl.1).symm
    rw [walkFrom, List.mem_append, ih hl.2]
    cases hskip : job.skips chain (above ++ [n]) false <;> simp [hskip, Entry.isDir]
  | link n target rest ih =>
    refine Iff.trans ?_ (exists_reaches_cons_iff (e := .link target) hl.1).symm
    rw [walkFrom, List.mem_append, ih hl.2]
    cases hskip : job.skips chain (above ++ [n]) false <;> simp [hskip, Entry.isDir]
  | dir n inside rest ihIn ih =>
    refine Iff.trans ?_ (exists_reaches_cons_iff (e := .dir inside) hl.1).symm
    rw [walkFrom, List.mem_append, ih hl.2.2]
    cases hskip : job.skips chain (above ++ [n]) true with
    | true => simp [hskip, Entry.isDir]
    | false =>
      have hin : names ∈ job.walkFrom (job.enter chain (above ++ [n]) inside) (above ++ [n]) inside ↔
          _ := ihIn hl.2.1
      simp [hskip, Entry.isDir, hin]

/-! ## In which order -/

/-- What the walk down a listing comes to begins with a name of the listing. -/
theorem exists_of_mem_walkFrom {l : Listing} (hl : l.Distinct)
    (h : names ∈ job.walkFrom chain above l) :
    ∃ n rest, names = above ++ n :: rest ∧ n ∈ l.names := by
  obtain ⟨tail, rfl, hreach⟩ := (mem_walkFrom_iff hl).mp h
  obtain ⟨n, rest, rfl, hn⟩ := hreach.exists_cons
  exact ⟨n, rest, rfl, hn⟩

/-- Nothing in the rest of a listing is a beginning of what stands behind its first name. -/
theorem not_prefix_of_mem_walkFrom {n : Name} {rest : Listing} {a b : List Name}
    (hrest : rest.Distinct) (hn : n ∉ rest.names) (ha : above ++ [n] <+: a)
    (hb : b ∈ job.walkFrom chain above rest) : ¬ b <+: a := by
  obtain ⟨k, more, rfl, hk⟩ := exists_of_mem_walkFrom hrest hb
  intro hba
  have hshort : above ++ [k] <+: above ++ k :: more := ⟨more, by simp⟩
  have heq : above ++ [k] = above ++ [n] :=
    (List.prefix_of_prefix_length_le (hshort.trans hba) ha (by simp)).eq_of_length (by simp)
  rw [List.append_cancel_left_eq, List.cons.injEq] at heq
  exact hn (heq.1 ▸ hk)

/-- The walk down a listing puts nothing behind what is inside it. -/
theorem walkFrom_pairwise {l : Listing} (hl : l.Distinct) :
    (job.walkFrom chain above l).Pairwise fun a b => ¬ b <+: a := by
  induction l generalizing chain above with
  | empty => exact List.Pairwise.nil
  | file n _ rest ih | link n _ rest ih =>
    rw [walkFrom, List.pairwise_append]
    refine ⟨?_, ih hl.2, fun a ha b hb => ?_⟩
    · split
      · exact List.Pairwise.nil
      · exact List.pairwise_singleton _ _
    · refine not_prefix_of_mem_walkFrom hl.2 hl.1 ?_ hb
      split at ha
      · exact absurd ha List.not_mem_nil
      · exact List.mem_singleton.mp ha ▸ List.prefix_rfl
  | dir n inside rest ihIn ih =>
    have hin {a : List Name} {chain' : Chain}
        (ha : a ∈ job.walkFrom chain' (above ++ [n]) inside) :
        ∃ k more, a = above ++ [n] ++ k :: more := by
      obtain ⟨k, more, h, _⟩ := exists_of_mem_walkFrom hl.2.1 ha
      exact ⟨k, more, h⟩
    rw [walkFrom, List.pairwise_append]
    refine ⟨?_, ih hl.2.2, fun a ha b hb => ?_⟩
    · split
      · exact List.Pairwise.nil
      · refine List.pairwise_cons.mpr ⟨fun a ha hprefix => ?_, ihIn hl.2.1⟩
        obtain ⟨k, more, rfl⟩ := hin ha
        have hlen := hprefix.length_le
        simp only [List.length_append, List.length_cons] at hlen
        omega
    · refine not_prefix_of_mem_walkFrom hl.2.2 hl.1 ?_ hb
      split at ha
      · exact absurd ha List.not_mem_nil
      · rcases List.mem_cons.mp ha with rfl | ha
        · exact List.prefix_rfl
        · obtain ⟨k, more, rfl⟩ := hin ha
          exact List.prefix_append _ _

/-! ## The rules for an entry -/

/-- The rules that the root, or a directory below it, brings along. -/
def frameAt (job : Job) : List Name → Frame
  | [] => Chain.rootFrame job.place job.settings job.root job.location job.inside
  | n :: names =>
    Chain.frameOf job.place job.settings (job.path (n :: names)) (job.location ++ n :: names)
      ((job.inside.descend (n :: names)).getD .empty)

/-- The rules for the entries of a directory: those that it brings along and those of each directory
above it up to the root, the nearest first. -/
def rulesAt (job : Job) (dir : List Name) : Chain :=
  { job.rules with frames := dir.inits.reverse.map job.frameAt }

theorem rulesAt_nil : job.rulesAt [] = job.rules := rfl

/-- One directory further down there is one frame more. -/
theorem rulesAt_concat {dir : List Name} {n : Name} {m : Listing}
    (h : job.inside.descend (dir ++ [n]) = some m) :
    job.rulesAt (dir ++ [n]) = job.enter (job.rulesAt dir) (dir ++ [n]) m := by
  have hframe : job.frameAt (dir ++ [n]) =
      Chain.frameOf job.place job.settings (job.path (dir ++ [n])) (job.location ++ (dir ++ [n])) m := by
    cases dir <;> simp_all [frameAt]
  have hinits : (dir ++ [n]).inits = dir.inits ++ [dir ++ [n]] := by simp [List.inits_append]
  simp only [rulesAt, hinits, List.reverse_append, List.reverse_singleton, List.map_append,
    List.map_singleton, hframe]
  rfl

/-- The entry is a directory. -/
def isDirAt (job : Job) (names : List Name) : Bool := (job.inside.entry? names).any Entry.isDir

/-- The rules of the directories above the entry ignore it. -/
def ignoresAt (job : Job) (names : List Name) : Bool :=
  job.ignores (job.rulesAt names.dropLast) names (job.isDirAt names)

/-- The walk passes over the entry, if it comes so far. -/
def skipsAt (job : Job) (names : List Name) : Bool := job.ignoresAt names || job.leavesOut names

/-- For an entry of a directory on the way the rules are those that the walk has there. -/
theorem skipsAt_concat {l : Listing} {n : Name} {e : Entry}
    (h : job.inside.descend above = some l) (he : l.find? n = some e) :
    job.skipsAt (above ++ [n]) = job.skips (job.rulesAt above) (above ++ [n]) e.isDir := by
  have hentry : job.inside.entry? (above ++ [n]) = some e := by
    rw [Listing.entry?_append h, Listing.entry?_singleton, he]
  rw [skipsAt, ignoresAt, isDirAt, hentry, List.dropLast_concat]
  rfl

/-- What holds on the way to an entry holds of its first name, and on the way from there. -/
theorem forall_prefix_cons_iff {p : List Name → Prop} {n : Name} {rest : List Name} :
    (∀ part, part ≠ [] → part <+: n :: rest → p part) ↔
      p [n] ∧ ∀ part, part ≠ [] → part <+: rest → p (n :: part) := by
  constructor
  · intro h
    refine ⟨h [n] (List.cons_ne_nil n []) (List.prefix_append [n] rest), fun part _ hpart => ?_⟩
    exact h (n :: part) (List.cons_ne_nil n part) (List.cons_prefix_cons.mpr ⟨rfl, hpart⟩)
  · rintro ⟨hfirst, hrest⟩ part hne hpart
    obtain ⟨more, rfl, hmore⟩ := (List.prefix_cons_iff.mp hpart).resolve_left hne
    by_cases hnil : more = []
    · rw [hnil]
      exact hfirst
    · exact hrest more hnil hmore

/-- By the first name: the walk comes to that entry, or into it. -/
theorem reaches_first_iff {l : Listing} {n : Name} {rest : List Name} :
    job.Reaches chain above l (n :: rest) ↔
      ∃ e, l.find? n = some e ∧ job.skips chain (above ++ [n]) e.isDir = false ∧
        (rest = [] ∨ ∃ m, e = .dir m ∧
          job.Reaches (job.enter chain (above ++ [n]) m) (above ++ [n]) m rest) := by
  constructor
  · intro h
    cases h with
    | entry hfind hskip => exact ⟨_, hfind, hskip, .inl rfl⟩
    | inside hfind hskip hmore => exact ⟨_, hfind, hskip, .inr ⟨_, rfl, hmore⟩⟩
  · rintro ⟨e, hfind, hskip, rfl | ⟨m, rfl, hmore⟩⟩
    · exact .entry hfind hskip
    · exact .inside hfind hskip hmore

/-- The walk comes to an entry when it passes over nothing on the way to it. -/
theorem reaches_iff {l : Listing} {tail : List Name} (h : job.inside.descend above = some l) :
    job.Reaches (job.rulesAt above) above l tail ↔
      tail ≠ [] ∧ (l.entry? tail).isSome ∧
        ∀ part, part ≠ [] → part <+: tail → job.skipsAt (above ++ part) = false := by
  induction tail generalizing above l with
  | nil =>
    refine ⟨fun hr => ?_, fun hr => absurd rfl hr.1⟩
    obtain ⟨_, _, h0, _⟩ := hr.exists_cons
    cases h0
  | cons n rest ih =>
    have hinside {m : Listing} (hm : l.find? n = some (.dir m)) :
        job.Reaches (job.enter (job.rulesAt above) (above ++ [n]) m) (above ++ [n]) m rest ↔
          rest ≠ [] ∧ (m.entry? rest).isSome ∧
            ∀ part, part ≠ [] → part <+: rest → job.skipsAt (above ++ n :: part) = false := by
      have hdown : job.inside.descend (above ++ [n]) = some m := by
        rw [Listing.descend_append, h, Option.bind_some, Listing.descend_singleton.mpr hm]
      rw [← rulesAt_concat hdown, ih hdown]
      simp only [List.append_assoc, List.singleton_append]
    rw [reaches_first_iff, Listing.isSome_entry?_cons_iff, forall_prefix_cons_iff]
    constructor
    · rintro ⟨e, hfind, hskip, hrest⟩
      rw [← skipsAt_concat h hfind] at hskip
      rcases hrest with rfl | ⟨m, rfl, hmore⟩
      · exact ⟨List.cons_ne_nil _ _, ⟨e, hfind, .inl rfl⟩, hskip,
          fun part hne hpart => absurd (List.prefix_nil.mp hpart) hne⟩
      · obtain ⟨-, hsome, hfree⟩ := (hinside hfind).mp hmore
        exact ⟨List.cons_ne_nil _ _, ⟨_, hfind, .inr ⟨m, rfl, hsome⟩⟩, hskip, hfree⟩
    · rintro ⟨-, ⟨e, hfind, hrest⟩, hskip, hfree⟩
      rw [skipsAt_concat h hfind] at hskip
      refine ⟨e, hfind, hskip, ?_⟩
      by_cases hnil : rest = []
      · exact .inl hnil
      · obtain ⟨m, rfl, hsome⟩ := hrest.resolve_left hnil
        exact .inr ⟨m, rfl, (hinside hfind).mpr ⟨hnil, hsome, hfree⟩⟩

/-! ## From the root -/

/-- The walk comes to the root, and to the entries on the way to which it passes over nothing. -/
theorem mem_reached_iff :
    names ∈ job.reached ↔
      (job.inside.entry? names).isSome ∧
        ∀ part, part ≠ [] → part <+: names → job.skipsAt part = false := by
  have hdistinct := FileSystem.distinct_of_listing? job.listed
  have hfrom : names ∈ job.walkFrom job.rules [] job.inside ↔
      job.Reaches (job.rulesAt []) [] job.inside names := by
    rw [mem_walkFrom_iff hdistinct, rulesAt_nil]
    exact ⟨fun ⟨_, hn, hr⟩ => hn ▸ hr, fun hr => ⟨names, rfl, hr⟩⟩
  rw [reached, List.mem_cons, hfrom, reaches_iff rfl]
  constructor
  · rintro (rfl | ⟨_, hsome, hfree⟩)
    · exact ⟨rfl, fun part hne hpart => absurd (List.prefix_nil.mp hpart) hne⟩
    · exact ⟨hsome, hfree⟩
  · rintro ⟨hsome, hfree⟩
    by_cases hne : names = []
    · exact .inl hne
    · exact .inr ⟨hne, hsome, hfree⟩

/-- Whatever the walk comes to, it has come to what is above. -/
theorem mem_reached_of_prefix {part : List Name} (h : names ∈ job.reached) (hp : part <+: names) :
    part ∈ job.reached := by
  rw [mem_reached_iff] at h ⊢
  refine ⟨?_, fun q hne hq => h.2 q hne (hq.trans hp)⟩
  obtain ⟨rest, rfl⟩ := hp
  exact Listing.isSome_entry?_of_append h.1

/-- The walk puts nothing behind what is inside it. -/
theorem reached_pairwise : job.reached.Pairwise fun a b => ¬ b <+: a := by
  have hdistinct := FileSystem.distinct_of_listing? job.listed
  refine List.pairwise_cons.mpr ⟨fun a ha hprefix => ?_, walkFrom_pairwise hdistinct⟩
  obtain ⟨n, rest, rfl, _⟩ := exists_of_mem_walkFrom hdistinct ha
  exact List.cons_ne_nil _ _ (List.prefix_nil.mp hprefix)

end IgnoreAtlas.Scan.Job
