/-!
# Bytes and text

Names and file contents are bytes; what is printed is text. Text is written in UTF-8, and bytes
are read back in one of two ways:

- `Utf8.decode?` is strict: bytes that are not UTF-8 have no text;
- `Utf8.lossy` always answers: each longest broken beginning of a character becomes one U+FFFD.

`decode?_encode` says that the strict reading undoes the writing, and `encode_of_decode?` that it reads
nothing else.

A text can be trimmed at both ends, of white space in the sense of Unicode, and filled up to the width
of a column.
-/

namespace IgnoreAtlas

/-- A string of bytes. -/
abbrev Bytes := List UInt8

namespace Utf8

/-- The UTF-8 bytes of a text. -/
def encode (text : String) : Bytes := text.toUTF8.data.toList

/-- The text whose UTF-8 bytes these are, if there is one. -/
def decode? (bytes : Bytes) : Option String := String.fromUTF8? ⟨bytes.toArray⟩

theorem decode?_encode (text : String) : decode? (encode text) = some text := by
  show String.fromUTF8? text.toUTF8 = some text
  rw [String.fromUTF8?, String.toUTF8_eq_toByteArray, dif_pos text.isValidUTF8]
  rfl

theorem encode_of_decode? {bytes : Bytes} {text : String} (h : decode? bytes = some text) :
    encode text = bytes := by
  unfold decode? String.fromUTF8? at h
  split at h
  · obtain rfl := Option.some.inj h
    rfl
  · cases h

/-- The lead byte `b` of a character of several bytes: how many bytes follow, and the range of the
first of them. The ranges leave out overlong forms, surrogates and values above U+10FFFF. -/
def lead? (b : UInt8) : Option (Nat × UInt8 × UInt8) :=
  if 0xC2 ≤ b && b ≤ 0xDF then some (1, 0x80, 0xBF)
  else if b == 0xE0 then some (2, 0xA0, 0xBF)
  else if b == 0xED then some (2, 0x80, 0x9F)
  else if 0xE1 ≤ b && b ≤ 0xEF then some (2, 0x80, 0xBF)
  else if b == 0xF0 then some (3, 0x90, 0xBF)
  else if b == 0xF4 then some (3, 0x80, 0x8F)
  else if 0xF1 ≤ b && b ≤ 0xF3 then some (3, 0x80, 0xBF)
  else none

/-- What is being read: nothing, or a character with `value` so far, of which `missing` bytes are
still to come, the next of them between `low` and `high`. -/
structure Pending where
  value : Nat
  missing : Nat
  low : UInt8
  high : UInt8

/-- The character that stands for bytes that are no text. -/
def replacement : Char := '\uFFFD'

/-- The first byte of a character, read with nothing pending. -/
def start (b : UInt8) : Sum Char Pending :=
  if b < 0x80 then .inl (Char.ofNat b.toNat)
  else match lead? b with
    | none => .inl replacement
    | some (n, low, high) =>
      .inr ⟨b.toNat % (if n == 1 then 32 else if n == 2 then 16 else 8), n, low, high⟩

/-- Reads on with `pending` open. -/
def lossyFrom : Option Pending → Bytes → List Char
  | none, [] => []
  | some _, [] => [replacement]
  | none, b :: bytes =>
    match start b with
    | .inl c => c :: lossyFrom none bytes
    | .inr p => lossyFrom (some p) bytes
  | some p, b :: bytes =>
    if p.low ≤ b && b ≤ p.high then
      let value := p.value * 64 + (b.toNat - 0x80)
      if p.missing ≤ 1 then Char.ofNat value :: lossyFrom none bytes
      else lossyFrom (some ⟨value, p.missing - 1, 0x80, 0xBF⟩) bytes
    else
      match start b with
      | .inl c => replacement :: c :: lossyFrom none bytes
      | .inr q => replacement :: lossyFrom (some q) bytes

/-- The text of bytes that may be broken: each longest broken beginning of a character, and each
byte that begins none, is shown as U+FFFD. -/
def lossy (bytes : Bytes) : String := String.ofList (lossyFrom none bytes)

end Utf8

namespace Text

/-! ## White space -/

/-- The code points with the property `White_Space`, as ranges. -/
def blankRanges : List (Nat × Nat) :=
  [(0x09, 0x0D), (0x20, 0x20), (0x85, 0x85), (0xA0, 0xA0), (0x1680, 0x1680), (0x2000, 0x200A),
    (0x2028, 0x2029), (0x202F, 0x202F), (0x205F, 0x205F), (0x3000, 0x3000)]

/-- White space in the sense of Unicode. -/
def isBlank (c : Char) : Bool :=
  blankRanges.any fun (low, high) => decide (low ≤ c.toNat) && decide (c.toNat ≤ high)

/-- Without the white space at the front. -/
def trimStart (text : List Char) : List Char := text.dropWhile isBlank

/-- Without the white space at the end. -/
def trimEnd (text : List Char) : List Char := (text.reverse.dropWhile isBlank).reverse

/-! ## Columns

A width is counted in characters. A text that is wider stays as it is. -/

/-- The text with blanks behind it. -/
def padRight (width : Nat) (text : String) : String :=
  text ++ String.ofList (List.replicate (width - text.length) ' ')

/-- The text with blanks in front of it. -/
def padLeft (width : Nat) (text : String) : String :=
  String.ofList (List.replicate (width - text.length) ' ') ++ text

/-- A number with zeros in front of it. -/
def zeroPad (width : Nat) (number : Nat) : String :=
  let digits := toString number
  String.ofList (List.replicate (width - digits.length) '0') ++ digits

end Text

end IgnoreAtlas
