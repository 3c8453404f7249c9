import IgnoreAtlas.Number

/-!
# Sizes for people

A number of bytes below 1024 is written in full. Above that the unit is the largest whose size the
number reaches, terabytes at most, and the number of units is rounded to two places. The unit is
chosen before rounding, so a size just below a unit is shown as 1024.00 of the smaller one.

Numbers of more than 53 bits are first rounded to 53 significant bits.
-/

namespace IgnoreAtlas.Units

/-- The names of the units, each 1024 times the one before. -/
def sizeUnits : List String := ["B", "KB", "MB", "GB", "TB"]

/-- The largest power `k` up to `most` with `1024 ^ k ≤ bytes`. -/
def sizePower (bytes : Nat) : Nat → Nat
  | 0 => 0
  | most + 1 => if Nat.pow 1024 (most + 1) ≤ bytes then most + 1 else sizePower bytes most

/-- The number of units of power `k`, in hundredths. -/
def sizeHundredths (bytes k : Nat) : Nat :=
  Dyadic.hundredths ⟨(Dyadic.nearest bytes 1).significand, (Dyadic.nearest bytes 1).scale + 10 * k⟩

/-- The power of the unit in which a size is shown. -/
def shownPower (bytes : Nat) : Nat :=
  let x := Dyadic.nearest bytes 1
  sizePower (x.significand / twoTo x.scale) (sizeUnits.length - 1)

/-- A size with its unit. -/
def formatSize (bytes : Nat) : String :=
  if bytes < 1024 then toString bytes ++ " B"
  else
    let k := shownPower bytes
    twoPlaces (sizeHundredths bytes k) ++ " " ++ sizeUnits.getD k "TB"

end IgnoreAtlas.Units
