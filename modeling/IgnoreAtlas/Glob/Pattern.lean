import IgnoreAtlas.Text

/-!
# Patterns of bytes

A `Pattern` describes a set of byte strings: a byte of a set, any number of such bytes, one pattern
after another, either of two. `Pattern.Matches` says which strings are in the set, `Pattern.rests`
computes what can be left of a string behind a match, and `mem_rests_iff` says that the two agree.
So `Pattern.accepts` decides membership (`accepts_iff`).
-/

namespace IgnoreAtlas

/-- Bytes in one of the ranges, or, negated, in none of them. -/
structure ByteSet where
  negated : Bool
  ranges : List (UInt8 × UInt8)
  deriving DecidableEq

namespace ByteSet

/-- The byte is in the set. -/
def contains (set : ByteSet) (b : UInt8) : Bool :=
  (set.ranges.any fun (low, high) => low ≤ b && b ≤ high) != set.negated

/-- Every byte. -/
def all : ByteSet := ⟨true, []⟩

/-- One byte. -/
def single (b : UInt8) : ByteSet := ⟨false, [(b, b)]⟩

/-- Every byte but one. -/
def allBut (b : UInt8) : ByteSet := ⟨true, [(b, b)]⟩

end ByteSet

/-- A set of byte strings. -/
inductive Pattern
  /-- Only the empty string. -/
  | empty
  | one (set : ByteSet)
  | many (set : ByteSet)
  | seq (first second : Pattern)
  | either (first second : Pattern)
  deriving DecidableEq

namespace Pattern

/-- The string is in the set. -/
inductive Matches : Pattern → Bytes → Prop
  | empty : Matches .empty []
  | one {set : ByteSet} {b : UInt8} : set.contains b = true → Matches (.one set) [b]
  | manyNone {set : ByteSet} : Matches (.many set) []
  | manyMore {set : ByteSet} {b : UInt8} {bytes : Bytes} :
      set.contains b = true → Matches (.many set) bytes → Matches (.many set) (b :: bytes)
  | seq {p q : Pattern} {s t : Bytes} : Matches p s → Matches q t → Matches (.seq p q) (s ++ t)
  | left {p q : Pattern} {s : Bytes} : Matches p s → Matches (.either p q) s
  | right {p q : Pattern} {s : Bytes} : Matches q s → Matches (.either p q) s

/-- What can be left behind bytes of a set: the string, and each rest behind one more such byte. -/
def afterMany (set : ByteSet) : Bytes → List Bytes
  | [] => [[]]
  | b :: bytes =>
    (b :: bytes) :: if set.contains b then afterMany set bytes else []

/-- What can be left of the string behind a match. Equal rests are listed once, so their number
stays below the length of the string. -/
def rests : Pattern → Bytes → List Bytes
  | .empty, s => [s]
  | .one _, [] => []
  | .one set, b :: bytes => if set.contains b then [bytes] else []
  | .many set, s => afterMany set s
  | .seq p q, s => ((p.rests s).flatMap q.rests).eraseDups
  | .either p q, s => (p.rests s ++ q.rests s).eraseDups

/-- The whole string is in the set. -/
def accepts (p : Pattern) (s : Bytes) : Bool := (p.rests s).any List.isEmpty

/-- The patterns one after another. -/
def sequence : List Pattern → Pattern
  | [] => .empty
  | [p] => p
  | p :: ps => .seq p (sequence ps)

/-- Any of the patterns; of none, only the empty string. -/
def anyOf : List Pattern → Pattern
  | [] => .empty
  | [p] => p
  | p :: ps => .either p (anyOf ps)

/-! ## The computation is the definition -/

theorem mem_afterMany_iff {set : ByteSet} {s r : Bytes} :
    r ∈ afterMany set s ↔ ∃ t, s = t ++ r ∧ Matches (.many set) t := by
  induction s with
  | nil =>
    simp only [afterMany, List.mem_singleton]
    constructor
    · rintro rfl; exact ⟨[], rfl, .manyNone⟩
    · rintro ⟨t, h, _⟩
      exact (List.append_eq_nil_iff.1 h.symm).2
  | cons b bytes ih =>
    simp only [afterMany, List.mem_cons]
    constructor
    · rintro (rfl | h)
      · exact ⟨[], rfl, .manyNone⟩
      · split at h
        · next hb =>
          obtain ⟨t, rfl, ht⟩ := ih.1 h
          exact ⟨b :: t, rfl, .manyMore hb ht⟩
        · simp at h
    · rintro ⟨t, h, ht⟩
      cases ht with
      | manyNone => exact .inl h.symm
      | manyMore hb ht =>
        simp only [List.cons_append, List.cons.injEq] at h
        obtain ⟨rfl, rfl⟩ := h
        exact .inr (by rw [if_pos hb]; exact ih.2 ⟨_, rfl, ht⟩)

/-- A rest is what is left behind a beginning that matches. -/
theorem mem_rests_iff {p : Pattern} {s r : Bytes} :
    r ∈ p.rests s ↔ ∃ t, s = t ++ r ∧ Matches p t := by
  induction p generalizing s r with
  | empty =>
    simp only [rests, List.mem_singleton]
    exact ⟨fun h => ⟨[], h.symm, .empty⟩, fun ⟨t, h, ht⟩ => by cases ht; exact h.symm⟩
  | one set =>
    cases s with
    | nil =>
      simp only [rests, List.not_mem_nil, false_iff]
      rintro ⟨t, h, ht⟩
      cases ht with
      | one _ => simp at h
    | cons b bytes =>
      simp only [rests]
      constructor
      · intro h
        split at h
        · next hb => exact ⟨[b], by simp_all, .one hb⟩
        · simp at h
      · rintro ⟨t, h, ht⟩
        cases ht with
        | one hb =>
          simp only [List.cons_append, List.nil_append, List.cons.injEq] at h
          obtain ⟨rfl, rfl⟩ := h
          simp [hb]
  | many set => exact mem_afterMany_iff
  | seq p q ihp ihq =>
    simp only [rests, List.mem_eraseDups, List.mem_flatMap, ihp, ihq]
    constructor
    · rintro ⟨m, ⟨t, rfl, ht⟩, u, rfl, hu⟩
      exact ⟨t ++ u, by simp, .seq ht hu⟩
    · rintro ⟨w, rfl, hw⟩
      cases hw with
      | seq ht hu => exact ⟨_, ⟨_, by simp, ht⟩, _, rfl, hu⟩
  | either p q ihp ihq =>
    simp only [rests, List.mem_eraseDups, List.mem_append, ihp, ihq]
    constructor
    · rintro (⟨t, rfl, ht⟩ | ⟨t, rfl, ht⟩)
      · exact ⟨t, rfl, .left ht⟩
      · exact ⟨t, rfl, .right ht⟩
    · rintro ⟨t, rfl, ht⟩
      cases ht with
      | left h => exact .inl ⟨t, rfl, h⟩
      | right h => exact .inr ⟨t, rfl, h⟩

theorem accepts_iff {p : Pattern} {s : Bytes} : p.accepts s = true ↔ Matches p s := by
  simp only [accepts, List.any_eq_true, List.isEmpty_iff]
  constructor
  · rintro ⟨r, h, rfl⟩
    obtain ⟨t, rfl, ht⟩ := mem_rests_iff.1 h
    simpa using ht
  · intro h
    exact ⟨[], mem_rests_iff.2 ⟨s, by simp, h⟩, rfl⟩

end Pattern

end IgnoreAtlas
