import IgnoreAtlas.Glob.Pattern
import IgnoreAtlas.Path.Basic

/-!
# Globs

A glob is read from left to right into *pieces*, each of which is a pattern of bytes:

- `?` one byte that is no slash, `*` any number of those;
- `**` as a whole component: any number of components, see `Piece`;
- `[…]` one byte of a class, a slash too if the class holds it;
- `{…,…}` one of several globs;
- `\c` the character `c`, and every other character itself.

A character beyond ASCII is all of its bytes; in a class it is any one of them. A `[` without its
`]` is an ordinary character, and then so is every `[` behind it.

A glob that cannot be read has a reason, `Glob.Defect`.
-/

namespace IgnoreAtlas

/-- A part of a glob. -/
inductive Piece
  | literal (c : Char)
  /-- `?` -/
  | anyByte
  /-- `*` -/
  | anyBytes
  /-- `**/` at the start: nothing, a slash, or components with a slash behind them. -/
  | deepStart
  /-- `/**/`: a slash, or components between two slashes. -/
  | deepMiddle
  /-- `/**` at the end: a slash and anything. -/
  | deepEnd
  | oneOf (set : ByteSet)
  | group (pattern : Pattern)
  deriving DecidableEq

namespace Piece

/-- A byte as a pattern. -/
def byte (b : UInt8) : Pattern := .one (.single b)

/-- Anything, slashes too. -/
def anything : Pattern := .many .all

/-- The pattern of a piece. -/
def pattern : Piece → Pattern
  | literal c => .sequence ((String.utf8EncodeChar c).map byte)
  | anyByte => .one (.allBut slash)
  | anyBytes => .many (.allBut slash)
  | deepStart => .either (.either .empty (byte slash)) (.seq anything (byte slash))
  | deepMiddle => .either (byte slash) (.sequence [byte slash, anything, byte slash])
  | deepEnd => .seq (byte slash) anything
  | oneOf set => .one set
  | group p => p

end Piece

namespace Glob

/-- Why a glob cannot be read. -/
inductive Defect
  | reversedRange
  | unopenedGroup
  | unclosedGroup
  | danglingEscape
  deriving DecidableEq

/-! ## Classes -/

/-- What comes of reading a class. -/
inductive ClassReading
  /-- The class, and how many characters it takes. -/
  | closed (ranges : List (Char × Char)) (length : Nat)
  | unclosed
  | reversed

/-- Reads a class behind its `[` and its `!` or `^`. `ranges` are those read so far, last first;
`inRange` says that a `-` waits for the end of the last of them. -/
def readClass (first inRange : Bool) (ranges : List (Char × Char)) (length : Nat) :
    List Char → ClassReading
  | [] => .unclosed
  | c :: rest =>
    let extend (ranges : List (Char × Char)) :=
      match ranges with
      | (low, _) :: ranges => (low, c) :: ranges
      | [] => [(c, c)]
    let isReversed := (ranges.head?.map fun r => decide (c < r.1)).getD false
    if c = ']' ∧ !first then
      .closed ((if inRange then ('-', '-') :: ranges else ranges).reverse) (length + 1)
    else if first then
      readClass false false ((c, c) :: ranges) (length + 1) rest
    else if inRange then
      if isReversed then .reversed else readClass false false (extend ranges) (length + 1) rest
    else if c = '-' then readClass false true ranges (length + 1) rest
    else readClass false false ((c, c) :: ranges) (length + 1) rest

/-- The bytes that a range of characters adds to a class: for characters of several bytes, each of
their bytes, and the range from the last byte of the first to the first byte of the last. -/
def rangeBytes (low high : Char) : List (UInt8 × UInt8) :=
  let own (bytes : Bytes) := bytes.map fun b => (b, b)
  let lowBytes := String.utf8EncodeChar low
  let highBytes := String.utf8EncodeChar high
  if low = high then own lowBytes
  else
    match lowBytes.getLast?, highBytes with
    | some last, head :: tail => own lowBytes.dropLast ++ (last, head) :: own tail
    | _, _ => []

/-- The set of bytes of a class. -/
def classSet (negated : Bool) (ranges : List (Char × Char)) : ByteSet :=
  ⟨negated, ranges.flatMap fun (low, high) => rangeBytes low high⟩

/-! ## The reading -/

/-- What has been read: the pieces of the open alternative, last first, and for each open group, the
innermost first, its finished alternatives and the pieces in front of it, both last first. -/
structure Reading where
  pieces : List Piece := []
  groups : List (List Pattern × List Piece) := []
  /-- A `[` without a `]` has been met. -/
  unclosedClass : Bool := false

namespace Reading

/-- One more piece. -/
def push (r : Reading) (p : Piece) : Reading := { r with pieces := p :: r.pieces }

/-- Without the patterns that say nothing. -/
def spoken (patterns : List Pattern) : List Pattern := patterns.filter (· ≠ .empty)

/-- The pattern of the open alternative. -/
def alternative (r : Reading) : Pattern :=
  .sequence (spoken (r.pieces.reverse.map Piece.pattern))

/-- A group begins. -/
def openGroup (r : Reading) : Reading :=
  { r with pieces := [], groups := ([], r.pieces) :: r.groups }

/-- The next alternative of the group begins; outside a group a comma is a character. -/
def nextAlternative (r : Reading) : Reading :=
  match r.groups with
  | [] => r.push (.literal ',')
  | (done, before) :: groups =>
    { r with pieces := [], groups := (r.alternative :: done, before) :: groups }

/-- The group ends. -/
def closeGroup (r : Reading) : Except Defect Reading :=
  match r.groups with
  | [] => .error .unopenedGroup
  | (done, before) :: groups =>
    let choice := Pattern.anyOf (spoken (r.alternative :: done).reverse)
    .ok { r with pieces := .group choice :: before, groups := groups }

/-- Two stars that are no component of their own are two single stars. -/
def pushTwoStars (r : Reading) : Reading := (r.push .anyBytes).push .anyBytes

/-- Two stars behind `previous` and in front of `rest`: the new reading, and how many characters of
`rest` belong to them. -/
def pushStars (r : Reading) (previous : Option Char) (rest : List Char) : Reading × Nat :=
  let grouped := !r.groups.isEmpty
  match r.pieces with
  | [] =>
    match rest with
    | [] => (r.push .deepStart, 0)
    | c :: _ => if c = '/' then (r.push .deepStart, 1) else (r.pushTwoStars, 0)
  | last :: before =>
    let replaceLast (p : Piece) : Reading :=
      match last with
      | .deepStart | .deepEnd => r
      | _ => { r with pieces := p :: before }
    let separated := previous == some '/' ||
      (grouped && (previous == some ',' || previous == some '\x7b'))
    if !separated then (r.pushTwoStars, 0)
    else
      match rest with
      | [] => (replaceLast .deepEnd, 0)
      | c :: _ =>
        if grouped && (c == ',' || c == '\x7d') then (replaceLast .deepEnd, 0)
        else if c = '/' then (replaceLast .deepMiddle, 1)
        else (r.pushTwoStars, 0)

/-- One character: the new reading, and how many of the characters behind it are read with it. -/
def step (r : Reading) (previous : Option Char) (c : Char) (rest : List Char) :
    Except Defect (Reading × Nat) :=
  if c = '?' then .ok (r.push .anyByte, 0)
  else if c = '*' then
    match rest with
    | '*' :: rest =>
      let (r, length) := r.pushStars previous rest
      .ok (r, length + 1)
    | _ => .ok (r.push .anyBytes, 0)
  else if c = '[' ∧ !r.unclosedClass then
    let negated := rest.head? == some '!' || rest.head? == some '^'
    let body := if negated then rest.drop 1 else rest
    match readClass true false [] (if negated then 1 else 0) body with
    | .closed ranges length => .ok (r.push (.oneOf (classSet negated ranges)), length)
    | .unclosed => .ok ({ r with unclosedClass := true }.push (.literal '['), 0)
    | .reversed => .error .reversedRange
  else if c = '\x7b' then .ok (r.openGroup, 0)
  else if c = '\x7d' then r.closeGroup.map (·, 0)
  else if c = ',' then .ok (r.nextAlternative, 0)
  else if c = '\\' then
    match rest with
    | [] => .error .danglingEscape
    | e :: _ => .ok (r.push (.literal e), 1)
  else .ok (r.push (.literal c), 0)

/-- Reads all characters; the first `skip` have been read already. -/
def readFrom (r : Reading) (skip : Nat) (previous : Option Char) :
    List Char → Except Defect Reading
  | [] => .ok r
  | c :: rest =>
    match skip with
    | skip + 1 => r.readFrom skip (some c) rest
    | 0 =>
      match r.step previous c rest with
      | .ok (r, skip) => r.readFrom skip (some c) rest
      | .error defect => .error defect

end Reading

/-- The pattern of a glob. A glob that is only `**` (or `**/`) is every string. -/
def parse (glob : List Char) : Except Defect Pattern := do
  let r ← Reading.readFrom {} 0 none glob
  if r.groups.isEmpty then
    pure (if r.pieces = [.deepStart] then Piece.anything else r.alternative)
  else throw .unclosedGroup

end Glob

end IgnoreAtlas
