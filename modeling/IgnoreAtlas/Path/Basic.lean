import IgnoreAtlas.Text

/-!
# Paths

A path is the bytes someone wrote. What it *means* is its list of components, and every comparison
of paths is a comparison of those lists: repeated slashes, a slash at the end and an inner `.` make
no difference, while `..` and a `.` at the very front are components of their own. Nothing here
looks at a file system: `..` is not resolved.

The bytes are kept because paths are shown as they were written.
-/

namespace IgnoreAtlas

/-- The byte `/`. -/
def slash : UInt8 := 47

/-- The byte `.`. -/
def dot : UInt8 := 46

/-- Bytes that can name an entry of a directory: not empty, no slash, and neither `.` nor `..`. -/
def IsName (bytes : Bytes) : Prop :=
  bytes ≠ [] ∧ slash ∉ bytes ∧ bytes ≠ [dot] ∧ bytes ≠ [dot, dot]

instance (bytes : Bytes) : Decidable (IsName bytes) :=
  inferInstanceAs (Decidable (_ ∧ _ ∧ _ ∧ _))

/-- The name of an entry of a directory. -/
structure Name where
  bytes : Bytes
  isName : IsName bytes
  deriving DecidableEq

/-- A place in the tree of directories: the names that lead to it from the top. -/
abbrev Location := List Name

/-- One step of a path. -/
inductive Component
  /-- The top of the tree, in front of an absolute path. -/
  | root
  /-- A `.` in front of a relative path. -/
  | here
  /-- `..` -/
  | up
  | name (name : Name)
  deriving DecidableEq

namespace Component

/-- A code for the order of components: the top, `.`, `..`, then names by their bytes. -/
def key : Component → Bytes
  | root => [0]
  | here => [1]
  | up => [2]
  | name n => 3 :: n.bytes

theorem key_injective {a b : Component} (h : a.key = b.key) : a = b := by
  cases a <;> cases b <;> simp_all [key]
  next m n => cases m; cases n; simp_all

/-- How a component is written. -/
def bytes : Component → Bytes
  | root => [slash]
  | here => [dot]
  | up => [dot, dot]
  | name n => n.bytes

/-- What the bytes between two slashes stand for: nothing at all when they are empty or `.`. -/
def ofSegment? (segment : Bytes) : Option Component :=
  if segment = [dot, dot] then some .up
  else if h : IsName segment then some (.name ⟨segment, h⟩)
  else none

end Component

/-- The pieces between the separators; there is always at least one. -/
def splitOn (separator : UInt8) : Bytes → List Bytes
  | [] => [[]]
  | b :: bytes =>
    if b = separator then [] :: splitOn separator bytes
    else
      match splitOn separator bytes with
      | [] => [[b]]
      | piece :: pieces => (b :: piece) :: pieces

/-- The pieces with the separator put between them. -/
def joinWith (separator : UInt8) : List Bytes → Bytes
  | [] => []
  | [piece] => piece
  | piece :: pieces => piece ++ separator :: joinWith separator pieces

theorem splitOn_ne_nil (separator : UInt8) (bytes : Bytes) : splitOn separator bytes ≠ [] := by
  cases bytes with
  | nil => simp [splitOn]
  | cons b bytes =>
    unfold splitOn
    split
    · simp
    · split <;> simp

/-- Splitting loses nothing. -/
theorem joinWith_splitOn (separator : UInt8) (bytes : Bytes) :
    joinWith separator (splitOn separator bytes) = bytes := by
  induction bytes with
  | nil => rfl
  | cons b bytes ih =>
    unfold splitOn
    have hne := splitOn_ne_nil separator bytes
    cases hs : splitOn separator bytes with
    | nil => exact absurd hs hne
    | cons piece pieces =>
      rw [hs] at ih
      split
      · next hb => rw [← ih, hb]; rfl
      · rw [← ih]; cases pieces <;> rfl

/-- A path, as it was written. -/
structure Path where
  bytes : Bytes
  deriving DecidableEq

namespace Path

/-- The path a text spells. -/
def ofString (text : String) : Path := ⟨Utf8.encode text⟩

/-- The path as text to read, with U+FFFD for what is not text. -/
def display (p : Path) : String := Utf8.lossy p.bytes

/-- The path as text, if it is one. -/
def text? (p : Path) : Option String := Utf8.decode? p.bytes

/-- The bytes between the slashes. -/
def segments (p : Path) : List Bytes := splitOn slash p.bytes

/-- A path that begins at the top. -/
def isAbsolute (p : Path) : Bool := p.bytes.head? == some slash

/-- A relative path that begins with the component `.`. -/
def startsHere (p : Path) : Bool := p.segments.head? == some [dot]

/-- What the path means. -/
def components (p : Path) : List Component :=
  let inner := p.segments.filterMap Component.ofSegment?
  if p.isAbsolute then .root :: inner
  else if p.startsHere then .here :: inner
  else inner

/-- Two spellings of one path. -/
def same (p q : Path) : Bool := p.components == q.components

theorem same_iff {p q : Path} : p.same q ↔ p.components = q.components := beq_iff_eq

/-- `base` is the path itself or one of its ancestors, component by component. -/
def startsWith (p base : Path) : Bool := base.components.isPrefixOf p.components

theorem startsWith_iff {p base : Path} : p.startsWith base ↔ base.components <+: p.components :=
  List.isPrefixOf_iff_prefix

theorem startsWith_self (p : Path) : p.startsWith p := startsWith_iff.mpr List.prefix_rfl

theorem startsWith_trans {p q r : Path} (h : p.startsWith q) (h' : q.startsWith r) :
    p.startsWith r :=
  startsWith_iff.mpr ((startsWith_iff.mp h').trans (startsWith_iff.mp h))

/-- Paths that are around one another are the same. -/
theorem components_eq_of_startsWith {p q : Path} (h : p.startsWith q) (h' : q.startsWith p) :
    p.components = q.components := by
  rw [startsWith_iff] at h h'
  exact h'.eq_of_length (Nat.le_antisymm h'.length_le h.length_le)

/-- The path that `q` is when it is read in the directory `p`: an absolute `q` stays as it is. -/
def join (p q : Path) : Path :=
  if q.isAbsolute then q
  else if p.bytes = [] ∨ p.bytes.getLast? = some slash then ⟨p.bytes ++ q.bytes⟩
  else ⟨p.bytes ++ slash :: q.bytes⟩

/-- The entry `n` of the directory `p`. -/
def child (p : Path) (n : Name) : Path := p.join ⟨n.bytes⟩

/-- The entry that is reached from `p` through these names. -/
def descend (p : Path) (names : List Name) : Path := names.foldl child p

/-- The path of a place in the tree. -/
def ofLocation (location : Location) : Path :=
  ⟨slash :: joinWith slash (location.map Name.bytes)⟩

/-- The last component, if it is a name. -/
def fileName? (p : Path) : Option Name :=
  match p.components.getLast? with
  | some (.name n) => some n
  | _ => none

/-- The lists of components of the path and of its ancestors, the path first. -/
def ancestors (p : Path) : List (List Component) :=
  let count := p.components.length
  let bottom := if p.isAbsolute then 1 else 0
  (List.range (count + 1 - bottom)).map fun k => p.components.take (count - k)

/-! ## Order -/

/-- The key that paths are sorted by. -/
def key (p : Path) : List Bytes := p.components.map Component.key

/-- Paths are ordered by their components, a path before all that lies below it. -/
def le (p q : Path) : Bool := !decide (q.key < p.key)

/-- Paths with one key are the same. -/
theorem key_inj {p q : Path} : p.key = q.key ↔ p.components = q.components :=
  List.map_inj_right fun _ _ => Component.key_injective

theorem le_iff {p q : Path} : p.le q ↔ ¬q.key < p.key := by simp [le]

theorem le_trans {p q r : Path} (hpq : p.le q) (hqr : q.le r) : p.le r := by
  rw [le_iff] at *
  exact List.le_trans (α := Bytes) hpq hqr

theorem le_total (p q : Path) : p.le q || q.le p := by
  rw [Bool.or_eq_true, le_iff, le_iff]
  exact List.le_total (α := Bytes) p.key q.key

/-- Of paths in order that are not the same, the second is behind. -/
theorem lt_of_le {p q : Path} (h : p.le q) (hne : ¬p.same q) : p.key < q.key := by
  rw [le_iff] at h
  rcases (List.le_iff_lt_or_eq (α := Bytes)).mp h with hlt | heq
  · exact hlt
  · exact absurd (same_iff.mpr (key_inj.mp heq)) hne

/-! ## Cutting paths -/

/-- A segment that stands for no component. -/
def isIdle (segment : Bytes) : Bool := (Component.ofSegment? segment).isNone

/-- Without the first `count` components and the idle segments before them. -/
def dropSegments : Nat → List Bytes → List Bytes
  | 0, segments => segments
  | _ + 1, [] => []
  | count + 1, segment :: segments =>
    if isIdle segment then dropSegments (count + 1) segments else dropSegments count segments

/-- Without idle segments at the end. -/
def trimSegments (segments : List Bytes) : List Bytes :=
  (segments.reverse.dropWhile isIdle).reverse

/-- The segments that carry the components of the path behind its first `count`. -/
def segmentsAfter (p : Path) (count : Nat) : List Bytes :=
  match count with
  | 0 => p.segments
  | k + 1 =>
    if p.isAbsolute || p.startsHere then dropSegments k (p.segments.drop 1)
    else dropSegments (k + 1) p.segments

/-- The path without idle segments at its end. -/
def trimmed (p : Path) : Path :=
  let kept := trimSegments (p.segments.drop 1)
  match p.isAbsolute, kept with
  | true, [] => ⟨[slash]⟩
  | _, _ => ⟨joinWith slash ((p.segments.take 1) ++ kept)⟩

/-- What is left of the path below `base`, spelled as in the path but without separators and `.` at
its two ends. -/
def stripBase? (p base : Path) : Option Path :=
  if p.startsWith base then
    match base.components.length with
    | 0 => some p.trimmed
    | count => some ⟨joinWith slash (trimSegments ((p.segmentsAfter count).dropWhile isIdle))⟩
  else none

/-- The path up to its last component, spelled as in the path; the top and the empty path have no
parent. -/
def parent? (p : Path) : Option Path :=
  match p.components with
  | [] => none
  | [.root] => none
  | [_] => some ⟨[]⟩
  | _ =>
    match trimSegments (trimSegments p.segments).dropLast with
    | [] => some ⟨[if p.isAbsolute then slash else dot]⟩
    | kept => some ⟨joinWith slash kept⟩

end Path

end IgnoreAtlas
