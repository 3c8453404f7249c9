/-!
# Numbers

The numbers of so many bits, and rounding. `roundDiv` rounds a quotient to the nearest whole number, a
half to the even neighbour. A `Dyadic` is a number with a binary point; `Dyadic.nearest` is the quotient
rounded to 53 significant bits, and `Dyadic.add` the sum rounded the same way. `Dyadic.hundredths`
rounds such a number to two decimal places.
-/

namespace IgnoreAtlas

/-! ## Numbers of so many bits -/

/-- The number of values of 32 bits. -/
def values32 : Nat := 0x100000000

/-- The number of values of 63 bits. -/
def values63 : Nat := 0x8000000000000000

/-- The number of values of 64 bits. -/
def values64 : Nat := 0x10000000000000000

/-! ## Rounding -/

/-- The whole number nearest to `num / den`; of two, the even one. -/
def roundDiv (num den : Nat) : Nat :=
  let q := num / den
  let r := num % den
  if 2 * r < den then q
  else if den < 2 * r then q + 1
  else if q % 2 = 0 then q else q + 1

/-- The powers of two. -/
def twoTo (exponent : Nat) : Nat := Nat.pow 2 exponent

/-- The number `significand / 2 ^ scale`. -/
structure Dyadic where
  significand : Nat
  scale : Nat
  deriving DecidableEq

namespace Dyadic

/-- The significant bits that are kept. -/
def precision : Nat := 53

/-- `num / den` rounded to 53 significant bits, a half to the even neighbour. -/
def nearest (num den : Nat) : Dyadic :=
  if num = 0 then ⟨0, 0⟩
  else
    let up := precision - 1 + den.log2
    if num.log2 ≤ up then
      let scale := up - num.log2
      let scale :=
        if num * twoTo scale < den * twoTo (precision - 1) then scale + 1 else scale
      ⟨roundDiv (num * twoTo scale) den, scale⟩
    else
      let shift := num.log2 - up
      let shift :=
        if num < den * twoTo shift * twoTo (precision - 1) then shift - 1 else shift
      ⟨roundDiv num (den * twoTo shift) * twoTo shift, 0⟩

/-- The sum of a whole number and a number with a binary point, rounded to 53 significant bits. -/
def add (whole : Nat) (x : Dyadic) : Dyadic :=
  nearest (whole * twoTo x.scale + x.significand) (twoTo x.scale)

/-- The number of hundredths nearest to it; of two, the even one. -/
def hundredths (x : Dyadic) : Nat := roundDiv (100 * x.significand) (twoTo x.scale)

end Dyadic

/-- A count of hundredths as a decimal with two places. -/
def twoPlaces (hundredths : Nat) : String :=
  let rest := hundredths % 100
  toString (hundredths / 100) ++ "." ++ toString (rest / 10) ++ toString (rest % 10)

/-- `roundDiv` is within half a unit of the quotient. -/
theorem two_mul_roundDiv_le (num den : Nat) (h : 0 < den) :
    2 * (roundDiv num den * den) ≤ 2 * num + den ∧
      2 * num ≤ 2 * (roundDiv num den * den) + den := by
  have hd := Nat.div_add_mod num den
  have hm := Nat.mod_lt num h
  have hc : num / den * den = den * (num / den) := Nat.mul_comm ..
  have hs : (num / den + 1) * den = den * (num / den) + den := by
    rw [Nat.add_mul, Nat.one_mul, hc]
  unfold roundDiv
  simp only
  split
  · omega
  · split
    · omega
    · split <;> omega

end IgnoreAtlas
