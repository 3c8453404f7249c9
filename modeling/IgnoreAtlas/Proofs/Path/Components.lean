import IgnoreAtlas.Path.Set
import Mathlib.Data.List.Basic

/-!
# The components of built paths

Paths are compared by components, and built by joining bytes. The laws here say what joining does
to the components: an entry of an absolute path has the components of the path and one name more
(`components_child`), and the path of a location has the top and then its names
(`components_ofLocation`). With them the ancestors of a path that are at or below a root are its
beginnings that have the root as a beginning of their own (`holdsBelow_ancestors`).
-/

namespace IgnoreAtlas

/-- The name that a text spells. -/
def Name.spell (text : String) (h : IsName (Utf8.encode text) := by decide +kernel) : Name :=
  ⟨Utf8.encode text, h⟩

/-! ## Splitting and joining bytes -/

theorem splitOn_of_not_mem {separator : UInt8} :
    ∀ {bytes : Bytes}, separator ∉ bytes → splitOn separator bytes = [bytes]
  | [], _ => rfl
  | b :: bytes, h => by
    rw [List.mem_cons, not_or] at h
    simp [splitOn, Ne.symm h.1, splitOn_of_not_mem h.2]

/-- A separator splits. -/
theorem splitOn_append_cons (separator : UInt8) (front back : Bytes) :
    splitOn separator (front ++ separator :: back) =
      splitOn separator front ++ splitOn separator back := by
  induction front with
  | nil => simp [splitOn]
  | cons b front ih =>
    by_cases hb : b = separator
    · simp [splitOn, hb, ih]
    · simp only [List.cons_append, splitOn, if_neg hb, ih]
      cases hs : splitOn separator front with
      | nil => exact absurd hs (splitOn_ne_nil separator front)
      | cons piece pieces => rfl

theorem joinWith_cons_cons (separator : UInt8) (piece next : Bytes) (pieces : List Bytes) :
    joinWith separator (piece :: next :: pieces) =
      piece ++ separator :: joinWith separator (next :: pieces) := rfl

/-- Pieces without separators are found again. -/
theorem splitOn_joinWith {separator : UInt8} :
    ∀ {pieces : List Bytes}, pieces ≠ [] → (∀ piece ∈ pieces, separator ∉ piece) →
      splitOn separator (joinWith separator pieces) = pieces
  | [], h, _ => absurd rfl h
  | [piece], _, h => splitOn_of_not_mem (h piece List.mem_cons_self)
  | piece :: next :: pieces, _, h => by
    have hrest := splitOn_joinWith (List.cons_ne_nil next pieces)
      fun p hp => h p (List.mem_cons_of_mem _ hp)
    rw [joinWith_cons_cons, splitOn_append_cons, splitOn_of_not_mem (h piece List.mem_cons_self),
      hrest, List.singleton_append]

/-- One more piece goes behind a separator. -/
theorem joinWith_append_singleton (separator : UInt8) (last : Bytes) :
    ∀ {pieces : List Bytes}, pieces ≠ [] →
      joinWith separator (pieces ++ [last]) = joinWith separator pieces ++ separator :: last
  | [], h => absurd rfl h
  | [piece], _ => rfl
  | piece :: next :: pieces, _ => by
    have hrest := joinWith_append_singleton separator last (List.cons_ne_nil next pieces)
    rw [List.cons_append] at hrest
    rw [List.cons_append, List.cons_append, joinWith_cons_cons, hrest, joinWith_cons_cons,
      List.append_assoc, List.cons_append]

/-! ## Lists -/

/-- What is taken from a list is what fits, if whatever stands before something that fits does so
too. -/
theorem mem_takeWhile_iff {α : Type} {fits : α → Bool} {a : α} :
    ∀ {l : List α}, (l.Pairwise fun a b => fits b → fits a) →
      (a ∈ l.takeWhile fits ↔ a ∈ l ∧ fits a)
  | [], _ => by simp
  | b :: l, h => by
    obtain ⟨hb, hl⟩ := List.pairwise_cons.mp h
    by_cases hfits : fits b
    · rw [List.takeWhile_cons_of_pos hfits, List.mem_cons, List.mem_cons, mem_takeWhile_iff hl]
      exact ⟨fun ha => ha.elim (fun he => ⟨.inl he, he ▸ hfits⟩) fun ha => ⟨.inr ha.1, ha.2⟩,
        fun ha => ha.1.imp id fun hm => ⟨hm, ha.2⟩⟩
    · rw [List.takeWhile_cons_of_neg hfits]
      refine ⟨fun ha => absurd ha List.not_mem_nil, fun ha => ?_⟩
      rcases List.mem_cons.mp ha.1 with rfl | hm
      · exact absurd ha.2 hfits
      · exact absurd (hb a hm ha.2) hfits

/-! ## Components -/

namespace Component

@[simp] theorem ofSegment?_nil : ofSegment? [] = none := by
  rw [ofSegment?, if_neg (by decide), dif_neg (fun h => h.1 rfl)]

@[simp] theorem ofSegment?_name (n : Name) : ofSegment? n.bytes = some (.name n) := by
  rw [ofSegment?, if_neg n.isName.2.2.2, dif_pos n.isName]

end Component

namespace Path

theorem components_of_isAbsolute {p : Path} (h : p.isAbsolute) :
    p.components = .root :: p.segments.filterMap Component.ofSegment? := by
  simp [components, h]

theorem components_ne_nil {p : Path} (h : p.isAbsolute) : p.components ≠ [] := by
  simp [components_of_isAbsolute h]

theorem bytes_ne_nil {p : Path} (h : p.isAbsolute) : p.bytes ≠ [] := by
  intro hnil
  simp [isAbsolute, hnil] at h

/-- A path that begins with a slash goes on beginning with it. -/
theorem isAbsolute_append {p : Path} (h : p.isAbsolute) (more : Bytes) :
    (Path.mk (p.bytes ++ more)).isAbsolute := by
  obtain ⟨bytes⟩ := p
  cases bytes with
  | nil => simp [isAbsolute] at h
  | cons b bytes => exact h

theorem isAbsolute_of_startsWith_slash {bytes : Bytes} : (Path.mk (slash :: bytes)).isAbsolute := by
  simp [isAbsolute]

/-- A name is a relative path. -/
theorem isAbsolute_name (n : Name) : (Path.mk n.bytes).isAbsolute = false := by
  obtain ⟨bytes, hne, hslash, -⟩ := n
  cases bytes with
  | nil => rfl
  | cons b bytes =>
    have hb : b ≠ slash := fun h => hslash (h ▸ List.mem_cons_self)
    simp [isAbsolute, hb]

theorem isAbsolute_join {p : Path} (h : p.isAbsolute) (q : Path) : (p.join q).isAbsolute := by
  unfold join
  split
  · next hq => exact hq
  · split
    · exact isAbsolute_append h _
    · exact isAbsolute_append h _

theorem isAbsolute_child {p : Path} (h : p.isAbsolute) (n : Name) : (p.child n).isAbsolute :=
  isAbsolute_join h _

/-- The bytes of an entry go on from those of the path. -/
theorem exists_append_child (p : Path) (n : Name) : ∃ more, (p.child n).bytes = p.bytes ++ more := by
  unfold child join
  rw [isAbsolute_name, if_neg Bool.false_ne_true]
  split
  · exact ⟨n.bytes, rfl⟩
  · exact ⟨slash :: n.bytes, rfl⟩

theorem bytes_child_ne_nil {p : Path} (h : p.bytes ≠ []) (n : Name) : (p.child n).bytes ≠ [] := by
  obtain ⟨more, hmore⟩ := exists_append_child p n
  rw [hmore]
  exact List.append_ne_nil_of_left_ne_nil h more

theorem isAbsolute_child_eq {p : Path} (h : p.bytes ≠ []) (n : Name) :
    (p.child n).isAbsolute = p.isAbsolute := by
  obtain ⟨more, hmore⟩ := exists_append_child p n
  rw [isAbsolute, hmore, List.head?_append_of_ne_nil _ h, isAbsolute]

/-- The bytes of an entry are its name behind a slash, and the path in front of it or with it. -/
theorem exists_bytes_child {p : Path} (h : p.bytes ≠ []) (n : Name) :
    ∃ front, (p.child n).bytes = front ++ slash :: n.bytes ∧
      (p.bytes = front ∨ p.bytes = front ++ [slash]) := by
  unfold child join
  rw [isAbsolute_name, if_neg Bool.false_ne_true]
  split
  · next hopen =>
    obtain ⟨front, hfront⟩ := List.getLast?_eq_some_iff.mp (hopen.resolve_left h)
    refine ⟨front, ?_, .inr hfront⟩
    rw [hfront, List.append_assoc, List.singleton_append]
  · exact ⟨p.bytes, rfl, .inl rfl⟩

/-- The segments of an entry: those of the path, without an empty one at the end, and the name. -/
theorem exists_segments_child {p : Path} (h : p.bytes ≠ []) (n : Name) :
    ∃ kept, kept ≠ [] ∧ (p.child n).segments = kept ++ [n.bytes] ∧
      (p.segments = kept ∨ p.segments = kept ++ [[]]) := by
  obtain ⟨front, hchild, hpath⟩ := exists_bytes_child h n
  refine ⟨splitOn slash front, splitOn_ne_nil slash front, ?_, ?_⟩
  · rw [segments, hchild, splitOn_append_cons, splitOn_of_not_mem n.isName.2.1]
  · rcases hpath with hsame | hslash
    · rw [segments, hsame]
      exact .inl rfl
    · rw [segments, hslash, splitOn_append_cons]
      exact .inr rfl

/-- An entry has one component more than a path that is not empty. -/
theorem components_child_of_ne_nil {p : Path} (h : p.bytes ≠ []) (n : Name) :
    (p.child n).components = p.components ++ [.name n] := by
  obtain ⟨kept, hkept, hchild, hsegments⟩ := exists_segments_child h n
  have hinner : p.segments.filterMap Component.ofSegment? =
      kept.filterMap Component.ofSegment? := by
    rcases hsegments with hsame | hempty
    · rw [hsame]
    · simp [hempty]
  have hhere : (p.child n).startsHere = p.startsHere := by
    rw [startsHere, startsHere, hchild, List.head?_append_of_ne_nil _ hkept]
    rcases hsegments with hsame | hempty
    · rw [hsame]
    · rw [hempty, List.head?_append_of_ne_nil _ hkept]
  simp only [components, isAbsolute_child_eq h, hhere, hchild, hinner, List.filterMap_append,
    List.filterMap_cons, Component.ofSegment?_name, List.filterMap_nil]
  split
  · rfl
  · split <;> rfl

theorem components_child {p : Path} (h : p.isAbsolute) (n : Name) :
    (p.child n).components = p.components ++ [.name n] :=
  components_child_of_ne_nil (bytes_ne_nil h) n

theorem descend_append (p : Path) (names more : List Name) :
    p.descend (names ++ more) = (p.descend names).descend more := List.foldl_append

theorem isAbsolute_descend {p : Path} (h : p.isAbsolute) (names : List Name) :
    (p.descend names).isAbsolute := by
  induction names generalizing p with
  | nil => exact h
  | cons n names ih => exact ih (isAbsolute_child h n)

theorem isAbsolute_descend_eq {p : Path} (h : p.bytes ≠ []) (names : List Name) :
    (p.descend names).isAbsolute = p.isAbsolute := by
  induction names generalizing p with
  | nil => rfl
  | cons n names ih => exact (ih (bytes_child_ne_nil h n)).trans (isAbsolute_child_eq h n)

theorem components_descend_of_ne_nil {p : Path} (h : p.bytes ≠ []) (names : List Name) :
    (p.descend names).components = p.components ++ names.map .name := by
  induction names generalizing p with
  | nil => simp [descend]
  | cons n names ih =>
    calc ((p.child n).descend names).components
        = (p.child n).components ++ names.map .name := ih (bytes_child_ne_nil h n)
      _ = p.components ++ (n :: names).map .name := by simp [components_child_of_ne_nil h]

theorem components_descend {p : Path} (h : p.isAbsolute) (names : List Name) :
    (p.descend names).components = p.components ++ names.map .name :=
  components_descend_of_ne_nil (bytes_ne_nil h) names

/-- Names and their components tell one another. -/
theorem map_name_injective : ∀ {names others : List Name},
    names.map Component.name = others.map Component.name → names = others
  | [], [], _ => rfl
  | [], _ :: _, h => by simp at h
  | _ :: _, [], h => by simp at h
  | n :: names, m :: others, h => by
    rw [List.map_cons, List.map_cons, List.cons.injEq, Component.name.injEq] at h
    rw [h.1, map_name_injective h.2]

/-- The entries below a path are told apart by their names. -/
theorem components_descend_inj {p : Path} (h : p.isAbsolute) {names others : List Name} :
    (p.descend names).components = (p.descend others).components ↔ names = others := by
  rw [components_descend h, components_descend h, List.append_cancel_left_eq]
  exact ⟨map_name_injective, congrArg _⟩

/-- A path is above its entries. -/
theorem prefix_components_descend {p : Path} (h : p.isAbsolute) (names : List Name) :
    p.components <+: (p.descend names).components := by
  rw [components_descend h]
  exact List.prefix_append _ _

/-- One entry is at or above another when its names begin the other's. -/
theorem prefix_descend_iff_of_ne_nil {p : Path} (h : p.bytes ≠ []) {part names : List Name} :
    (p.descend part).components <+: (p.descend names).components ↔ part <+: names := by
  rw [components_descend_of_ne_nil h, components_descend_of_ne_nil h, List.prefix_append_right_inj]
  refine ⟨fun hp => ?_, fun hp => hp.map _⟩
  obtain ⟨other, hother, heq⟩ := List.prefix_map_iff.mp hp
  rw [map_name_injective heq]
  exact hother

theorem components_descend_prefix {p : Path} (h : p.isAbsolute) {part names : List Name} :
    (p.descend part).components <+: (p.descend names).components ↔ part <+: names :=
  prefix_descend_iff_of_ne_nil (bytes_ne_nil h)

/-- What is between a path and an entry below it is an entry on the way. -/
theorem exists_components_descend {p : Path} (h : p.isAbsolute) {names : List Name}
    {c : List Component} (hp : p.components <+: c) (hc : c <+: (p.descend names).components) :
    ∃ part, part <+: names ∧ c = (p.descend part).components := by
  obtain ⟨tail, rfl⟩ := hp
  rw [components_descend h, List.prefix_append_right_inj] at hc
  obtain ⟨part, hpart, rfl⟩ := List.prefix_map_iff.mp hc
  exact ⟨part, hpart, (components_descend h part).symm⟩

/-! ## Paths of locations -/

theorem isAbsolute_ofLocation (location : Location) : (ofLocation location).isAbsolute :=
  isAbsolute_of_startsWith_slash

/-- The bytes of a name do not end with a slash. -/
theorem getLast?_append_name (front : Bytes) (n : Name) :
    (front ++ n.bytes).getLast? ≠ some slash := by
  intro h
  obtain ⟨last, hlast⟩ := Option.ne_none_iff_exists'.mp
    (mt List.getLast?_eq_none_iff.mp n.isName.1)
  rw [List.getLast?_append, hlast, Option.some_or, Option.some.injEq] at h
  exact n.isName.2.1 (h ▸ List.mem_of_getLast? hlast)

/-- The path of a location with names ends with the last of them. -/
theorem getLast?_ofLocation_concat_ne (above : Location) (n : Name) :
    (ofLocation (above ++ [n])).bytes.getLast? ≠ some slash := by
  obtain ⟨start, hstart⟩ : ∃ start, (ofLocation (above ++ [n])).bytes = start ++ n.bytes := by
    cases above with
    | nil => exact ⟨[slash], rfl⟩
    | cons m above =>
      refine ⟨slash :: joinWith slash ((m :: above).map Name.bytes) ++ [slash], ?_⟩
      rw [ofLocation, List.map_append, List.map_singleton,
        joinWith_append_singleton slash n.bytes (by simp)]
      simp
  rw [hstart]
  exact getLast?_append_name start n

/-- A relative path that is read in a location stands behind a slash. -/
theorem join_ofLocation_concat (above : Location) (n : Name) {p : Path} (h : p.isAbsolute = false) :
    (ofLocation (above ++ [n])).join p = ⟨(ofLocation (above ++ [n])).bytes ++ slash :: p.bytes⟩ := by
  have hopen : ¬((ofLocation (above ++ [n])).bytes = [] ∨
      (ofLocation (above ++ [n])).bytes.getLast? = some slash) := by
    rw [not_or]
    exact ⟨List.cons_ne_nil _ _, getLast?_ofLocation_concat_ne above n⟩
  rw [join, h, if_neg Bool.false_ne_true, if_neg hopen]

/-- The path of an entry of a location is the location's path with the name behind it. -/
theorem child_ofLocation (location : Location) (n : Name) :
    (ofLocation location).child n = ofLocation (location ++ [n]) := by
  rcases List.eq_nil_or_concat' location with rfl | ⟨front, last, rfl⟩
  · rw [child, join, isAbsolute_name, if_neg Bool.false_ne_true]
    rfl
  · have hlast : joinWith slash ((front ++ [last] ++ [n]).map Name.bytes) =
        joinWith slash ((front ++ [last]).map Name.bytes) ++ slash :: n.bytes := by
      rw [List.map_append, List.map_singleton]
      exact joinWith_append_singleton slash n.bytes (by simp)
    rw [child, join_ofLocation_concat front last (isAbsolute_name n)]
    simp only [ofLocation, hlast, List.cons_append]

theorem descend_ofLocation (location : Location) (names : List Name) :
    (ofLocation location).descend names = ofLocation (location ++ names) := by
  induction names generalizing location with
  | nil => simp [descend]
  | cons n names ih =>
    calc ((ofLocation location).child n).descend names
        = (ofLocation (location ++ [n])).descend names := by rw [child_ofLocation]
      _ = ofLocation (location ++ n :: names) := by rw [ih, List.append_assoc, List.singleton_append]

theorem components_ofLocation (location : Location) :
    (ofLocation location).components = .root :: location.map .name := by
  have htop : (ofLocation []).components = [.root] := by decide
  calc (ofLocation location).components
      = ((ofLocation []).descend location).components := by rw [descend_ofLocation, List.nil_append]
    _ = .root :: location.map .name := by
      rw [components_descend (isAbsolute_ofLocation []), htop, List.singleton_append]

/-- Locations with one path are one. -/
theorem components_ofLocation_inj {a b : Location} :
    (ofLocation a).components = (ofLocation b).components ↔ a = b := by
  rw [components_ofLocation, components_ofLocation, List.cons.injEq]
  exact ⟨fun h => map_name_injective h.2, fun h => ⟨rfl, congrArg _ h⟩⟩

theorem ofLocation_inj {a b : Location} : ofLocation a = ofLocation b ↔ a = b :=
  ⟨fun h => components_ofLocation_inj.mp (congrArg components h), congrArg _⟩

/-- The paths of locations are around one another when their names begin one another. -/
theorem startsWith_ofLocation_iff {p root : Location} :
    (ofLocation p).startsWith (ofLocation root) ↔ root <+: p := by
  have hdescend (location : Location) : ofLocation location = (ofLocation []).descend location := by
    rw [descend_ofLocation, List.nil_append]
  rw [startsWith_iff, hdescend p, hdescend root]
  exact components_descend_prefix (isAbsolute_ofLocation [])

/-! ## Ancestors -/

/-- The ancestors go from the path upwards: each is a beginning of those before it. -/
theorem ancestors_pairwise (p : Path) : p.ancestors.Pairwise fun a b => b <+: a := by
  unfold ancestors
  rw [List.pairwise_map]
  exact List.pairwise_lt_range.imp fun hlt =>
    List.take_prefix_take_left (Nat.sub_le_sub_left (Nat.le_of_lt hlt) _)

/-- The ancestors of an absolute path are its beginnings down to the top. -/
theorem mem_ancestors {p : Path} (h : p.isAbsolute) {c : List Component} :
    c ∈ p.ancestors ↔ c ≠ [] ∧ c <+: p.components := by
  have hlen : 0 < p.components.length := List.length_pos_iff.mpr (components_ne_nil h)
  simp only [ancestors, h, if_true, List.mem_map, List.mem_range, Nat.add_sub_cancel]
  constructor
  · rintro ⟨k, hk, rfl⟩
    refine ⟨fun h0 => ?_, List.take_prefix _ _⟩
    have := congrArg List.length h0
    simp only [List.length_take, List.length_nil] at this
    omega
  · rintro ⟨hne, hc⟩
    have hpos := List.length_pos_iff.mpr hne
    refine ⟨p.components.length - c.length, by omega, ?_⟩
    rw [Nat.sub_sub_self hc.length_le]
    exact (List.prefix_iff_eq_take.mp hc).symm

/-- Without the path itself, the ancestors are its proper beginnings, down to the top if it has one. -/
theorem mem_drop_ancestors {p : Path} {c : List Component} :
    c ∈ p.ancestors.drop 1 ↔
      c <+: p.components ∧ c ≠ p.components ∧ (p.isAbsolute → c ≠ []) := by
  have hbottom : (if p.isAbsolute then 1 else 0) ≤ p.components.length := by
    split
    · next h => exact List.length_pos_iff.mpr (components_ne_nil h)
    · exact Nat.zero_le _
  have hdown : (p.isAbsolute → c ≠ []) ↔ (if p.isAbsolute then 1 else 0) ≤ c.length := by
    cases p.isAbsolute with
    | false => simp
    | true => simp [Nat.one_le_iff_ne_zero]
  have hrange {k m : Nat} : k ∈ (List.range m).drop 1 ↔ 1 ≤ k ∧ k < m := by
    rw [List.range_eq_range', List.drop_range', List.mem_range'_1]
    omega
  rw [hdown, ancestors, ← List.map_drop, List.mem_map]
  simp only [hrange]
  constructor
  · rintro ⟨k, hk, rfl⟩
    have hlen : (p.components.take (p.components.length - k)).length = p.components.length - k := by
      rw [List.length_take]
      omega
    refine ⟨List.take_prefix _ _, ?_, ?_⟩
    · intro heq
      rw [heq] at hlen
      omega
    · omega
  · rintro ⟨hc, hproper, hlow⟩
    have hlt : c.length < p.components.length :=
      Nat.lt_of_le_of_ne hc.length_le fun he => hproper (hc.eq_of_length he)
    refine ⟨p.components.length - c.length, by omega, ?_⟩
    rw [Nat.sub_sub_self hc.length_le]
    exact (List.prefix_iff_eq_take.mp hc).symm

end Path

namespace PathSet

variable {set : PathSet} {root p : Path}

/-- A root is at or above the ancestors of a path down to itself. -/
theorem mem_takeWhile_ancestors {ancestors : List (List Component)} {c : List Component}
    (h : ancestors.Pairwise fun a b => b <+: a) :
    c ∈ ancestors.takeWhile root.components.isPrefixOf ↔ c ∈ ancestors ∧ root.components <+: c := by
  rw [mem_takeWhile_iff, List.isPrefixOf_iff_prefix]
  exact h.imp fun hab hb => List.isPrefixOf_iff_prefix.mpr
    ((List.isPrefixOf_iff_prefix.mp hb).trans hab)

/-- What a set holds at a path or above it, up to a root. -/
theorem holdsBelow_ancestors (hroot : root.isAbsolute) (hp : p.isAbsolute) :
    set.holdsBelow root p.ancestors ↔
      ∃ c, root.components <+: c ∧ c <+: p.components ∧ set.contains c := by
  simp only [holdsBelow, List.any_eq_true, mem_takeWhile_ancestors p.ancestors_pairwise,
    Path.mem_ancestors hp]
  constructor
  · rintro ⟨c, ⟨⟨-, hc⟩, hr⟩, hs⟩
    exact ⟨c, hr, hc, hs⟩
  · rintro ⟨c, hr, hc, hs⟩
    exact ⟨c, ⟨⟨hr.ne_nil (Path.components_ne_nil hroot), hc⟩, hr⟩, hs⟩

/-- What a set holds above a path, up to a root. -/
theorem holdsBelow_drop_ancestors (h : p.isAbsolute → root.isAbsolute) :
    set.holdsBelow root (p.ancestors.drop 1) ↔
      ∃ c, root.components <+: c ∧ c <+: p.components ∧ c ≠ p.components ∧ set.contains c := by
  have hsorted := p.ancestors_pairwise.sublist (List.drop_sublist 1 p.ancestors)
  simp only [holdsBelow, List.any_eq_true, mem_takeWhile_ancestors hsorted, Path.mem_drop_ancestors]
  constructor
  · rintro ⟨c, ⟨⟨hc, hne, -⟩, hr⟩, hs⟩
    exact ⟨c, hr, hc, hne, hs⟩
  · rintro ⟨c, hr, hc, hne, hs⟩
    exact ⟨c, ⟨⟨hc, hne, fun habs => hr.ne_nil (Path.components_ne_nil (h habs))⟩, hr⟩, hs⟩

end PathSet

end IgnoreAtlas
