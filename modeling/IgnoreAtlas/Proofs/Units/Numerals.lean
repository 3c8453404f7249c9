import IgnoreAtlas.Units.Duration
import IgnoreAtlas.Units.Size
import Mathlib.Tactic.Linarith

/-!
# Numerals and their units

A size is shown in the largest unit that it reaches, and up to a minute a duration in seconds. Both are
shown to two places, and the numeral is nearest to the quantity although the quantity is rounded to 53
bits on the way (`isNearest_sizeHundredths`, `isNearest_hundredths`).

The unit is chosen for the quantity and not for the numeral. So the numeral is at least 1.00, but it is
1024.00 for a size from 1023.995 units on and 60.00 for a duration above 59.995 seconds
(`shown_formatSize`, `shown_format`); in between it is below.
-/

namespace IgnoreAtlas

/-! ## Rounding -/

/-- No whole number is nearer to `num / den`. -/
def IsNearest (n num den : Nat) : Prop :=
  2 * (n * den) ≤ 2 * num + den ∧ 2 * num ≤ 2 * (n * den) + den

theorem isNearest_roundDiv (num : Nat) {den : Nat} (h : 0 < den) :
    IsNearest (roundDiv num den) num den :=
  two_mul_roundDiv_le num den h

/-- A common factor does not matter. -/
theorem IsNearest.of_mul {n num den c : Nat} (hc : 0 < c) (h : IsNearest n (num * c) (den * c)) :
    IsNearest n num den := by
  obtain ⟨hleast, hmost⟩ := h
  constructor
  · apply Nat.le_of_mul_le_mul_right _ hc
    linarith
  · apply Nat.le_of_mul_le_mul_right _ hc
    linarith

theorem roundDiv_one (n : Nat) : roundDiv n 1 = n := by
  have h := isNearest_roundDiv n Nat.one_pos
  unfold IsNearest at h
  omega

/-- The text is a decimal with two places. The number is its value in hundredths. -/
inductive IsNumeral : String → Nat → Prop
  | decimal {whole tenths hundredths : Nat} (htenths : tenths < 10) (hhundredths : hundredths < 10) :
      IsNumeral (toString whole ++ "." ++ toString tenths ++ toString hundredths)
        (100 * whole + 10 * tenths + hundredths)

theorem isNumeral_twoPlaces (n : Nat) : IsNumeral (twoPlaces n) n := by
  have hvalue : 100 * (n / 100) + 10 * (n % 100 / 10) + n % 100 % 10 = n := by omega
  have hdecimal : IsNumeral (twoPlaces n) (100 * (n / 100) + 10 * (n % 100 / 10) + n % 100 % 10) :=
    .decimal (by omega) (by omega)
  rwa [hvalue] at hdecimal

namespace Dyadic

/-- A quotient below 2 ^ 53 is rounded to a number of binary places, many when it is small. -/
theorem exists_nearest {num den : Nat} (hnum : num ≠ 0) (h : num.log2 ≤ 52 + den.log2) :
    ∃ scale, 52 + den.log2 ≤ scale + num.log2 ∧
      nearest num den = ⟨roundDiv (num * 2 ^ scale) den, scale⟩ := by
  have hup : num.log2 ≤ precision - 1 + den.log2 := h
  unfold nearest
  rw [if_neg hnum]
  dsimp only
  rw [if_pos hup]
  split
  · refine ⟨_, ?_, rfl⟩
    show 52 + den.log2 ≤ 52 + den.log2 - num.log2 + 1 + num.log2
    omega
  · refine ⟨_, ?_, rfl⟩
    show 52 + den.log2 ≤ 52 + den.log2 - num.log2 + num.log2
    omega

/-- Whole numbers below 2 ^ 53 are kept. -/
theorem exists_nearest_one {n : Nat} (h : n < 2 ^ 53) :
    ∃ scale, nearest n 1 = ⟨n * 2 ^ scale, scale⟩ := by
  by_cases hzero : n = 0
  · subst hzero
    exact ⟨0, rfl⟩
  · have hlog : n.log2 < 53 := (Nat.log2_lt hzero).mpr h
    obtain ⟨scale, -, hnearest⟩ := exists_nearest hzero (Nat.le_add_right_of_le (Nat.le_of_lt_succ hlog))
    rw [roundDiv_one] at hnearest
    exact ⟨scale, hnearest⟩

/-- Greater ones stay great. -/
theorem exists_nearest_one_of_le {n : Nat} (h : 2 ^ 53 ≤ n) :
    ∃ significand, nearest n 1 = ⟨significand, 0⟩ ∧ 2 ^ 52 ≤ significand := by
  have hne : n ≠ 0 := by omega
  have hlog : 53 ≤ n.log2 := (Nat.le_log2 hne).mpr h
  have hself : 2 ^ n.log2 ≤ n := Nat.log2_self_le hne
  obtain ⟨shift, hshift⟩ := Nat.exists_eq_add_of_le hlog
  have hpow : 2 ^ n.log2 = 2 ^ (shift + 1) * 2 ^ 52 := by
    rw [hshift, ← Nat.pow_add]
    congr 1
    omega
  have hround := isNearest_roundDiv n (Nat.two_pow_pos (shift + 1))
  refine ⟨roundDiv n (2 ^ (shift + 1)) * 2 ^ (shift + 1), ?_, ?_⟩
  · have hup : ¬n.log2 ≤ precision - 1 + Nat.log2 1 := by
      show ¬n.log2 ≤ 52
      omega
    have hdown : n.log2 - (precision - 1 + Nat.log2 1) = shift + 1 := by
      show n.log2 - 52 = shift + 1
      omega
    have hfull : ¬n < 1 * twoTo (shift + 1) * twoTo (precision - 1) := by
      rw [Nat.one_mul]
      show ¬n < 2 ^ (shift + 1) * 2 ^ 52
      omega
    unfold nearest
    rw [if_neg hne]
    dsimp only
    rw [if_neg hup, hdown, if_neg hfull, Nat.one_mul]
    rfl
  · have hmost := hround.2
    have hpos := Nat.two_pow_pos (shift + 1)
    linarith

/-- A whole number that reaches a power of two still reaches it when it is rounded. -/
theorem two_pow_le_nearest {n k : Nat} (hk : k ≤ 52) (h : 2 ^ k ≤ n) :
    2 ^ k * 2 ^ (nearest n 1).scale ≤ (nearest n 1).significand := by
  rcases Nat.lt_or_ge n (2 ^ 53) with hsmall | hgreat
  · obtain ⟨scale, hnearest⟩ := exists_nearest_one hsmall
    rw [hnearest]
    exact Nat.mul_le_mul_right _ h
  · obtain ⟨significand, hnearest, hleast⟩ := exists_nearest_one_of_le hgreat
    rw [hnearest, Nat.pow_zero, Nat.mul_one]
    exact (Nat.pow_le_pow_right Nat.two_pos hk).trans hleast

end Dyadic

/-! ## Sizes -/

namespace Units

variable {bytes k : Nat}

theorem sizePower_spec (bytes most : Nat) :
    sizePower bytes most ≤ most ∧
      (sizePower bytes most = 0 ∨ 1024 ^ sizePower bytes most ≤ bytes) ∧
        (sizePower bytes most = most ∨ bytes < 1024 ^ (sizePower bytes most + 1)) := by
  induction most with
  | zero => exact ⟨Nat.le_refl 0, .inl rfl, .inl rfl⟩
  | succ most ih =>
    unfold sizePower
    split
    · next hreached => exact ⟨Nat.le_refl _, .inr hreached, .inl rfl⟩
    · next hbelow =>
      obtain ⟨hmost, hleast, hlargest⟩ := ih
      refine ⟨Nat.le_succ_of_le hmost, hleast, .inr ?_⟩
      rcases hlargest with heq | hlt
      · rw [heq]
        exact Nat.lt_of_not_le hbelow
      · exact hlt

/-- Rounding the number of bytes does not change the unit. -/
theorem shownPower_eq (bytes : Nat) : shownPower bytes = sizePower bytes 4 := by
  rcases Nat.lt_or_ge bytes (2 ^ 53) with hsmall | hgreat
  · obtain ⟨scale, hnearest⟩ := Dyadic.exists_nearest_one hsmall
    have hwhole : bytes * 2 ^ scale / twoTo scale = bytes :=
      Nat.mul_div_cancel _ (Nat.two_pow_pos scale)
    unfold shownPower
    rw [hnearest]
    dsimp only
    rw [hwhole]
    rfl
  · have hlargest {n : Nat} (h : 2 ^ 40 ≤ n) : sizePower n 4 = 4 := by
      have hreached : Nat.pow 1024 (3 + 1) ≤ n := h
      rw [sizePower, if_pos hreached]
    obtain ⟨significand, hnearest, hleast⟩ := Dyadic.exists_nearest_one_of_le hgreat
    have hwhole : significand / twoTo 0 = significand := Nat.div_one _
    unfold shownPower
    rw [hnearest]
    dsimp only
    rw [hwhole, hlargest (by omega)]
    exact hlargest (by omega)

/-- The numeral of a size below 2 ^ 53 is nearest to the number of units. -/
theorem isNearest_sizeHundredths (h : bytes < 2 ^ 53) (k : Nat) :
    IsNearest (sizeHundredths bytes k) (100 * bytes) (1024 ^ k) := by
  obtain ⟨scale, hnearest⟩ := Dyadic.exists_nearest_one h
  have hden : twoTo (scale + 10 * k) = 1024 ^ k * 2 ^ scale := by
    show 2 ^ (scale + 10 * k) = 1024 ^ k * 2 ^ scale
    rw [Nat.pow_add, Nat.pow_mul, Nat.mul_comm]
  have hround := isNearest_roundDiv (100 * (bytes * 2 ^ scale)) (Nat.two_pow_pos (scale + 10 * k))
  have hvalue : sizeHundredths bytes k = roundDiv (100 * (bytes * 2 ^ scale)) (2 ^ (scale + 10 * k)) := by
    unfold sizeHundredths Dyadic.hundredths
    rw [hnearest]
    rfl
  rw [← hvalue] at hround
  change IsNearest _ _ (twoTo (scale + 10 * k)) at hround
  rw [hden, ← Nat.mul_assoc] at hround
  exact hround.of_mul (Nat.two_pow_pos scale)

/-- It is no less than 1.00. -/
theorem hundred_le_sizeHundredths (hk : k ≤ 4) (h : 1024 ^ k ≤ bytes) :
    100 ≤ sizeHundredths bytes k := by
  have hreached : 2 ^ (10 * k) ≤ bytes := by
    rw [Nat.pow_mul]
    exact h
  have hleast := Dyadic.two_pow_le_nearest (by omega) hreached
  rw [← Nat.pow_add, Nat.add_comm] at hleast
  have hpos := Nat.two_pow_pos ((Dyadic.nearest bytes 1).scale + 10 * k)
  obtain ⟨-, hmost⟩ := isNearest_roundDiv (100 * (Dyadic.nearest bytes 1).significand) hpos
  change 2 * (100 * _) ≤ 2 * (sizeHundredths bytes k * _) + _ at hmost
  by_contra hless
  have hsmall : sizeHundredths bytes k * 2 ^ ((Dyadic.nearest bytes 1).scale + 10 * k) ≤
      99 * 2 ^ ((Dyadic.nearest bytes 1).scale + 10 * k) :=
    Nat.mul_le_mul_right _ (by omega)
  omega

/-- How a size is shown. -/
inductive Shown (bytes : Nat) : String → Prop
  | plain (h : bytes < 1024) : Shown bytes (toString bytes ++ " B")
  | rounded {k hundredths : Nat} {numeral unit : String} (hk : 0 < k)
      (hunit : sizeUnits[k]? = some unit) (hreached : 1024 ^ k ≤ bytes)
      (hlargest : k < 4 → bytes < 1024 ^ (k + 1)) (hnumeral : IsNumeral numeral hundredths)
      (hleast : 100 ≤ hundredths)
      (hnearest : bytes < 2 ^ 53 → IsNearest hundredths (100 * bytes) (1024 ^ k))
      (houtgrown : k < 4 → hundredths ≤ 102400 ∧
        (hundredths = 102400 ↔ 204799 * 1024 ^ k ≤ 200 * bytes)) :
      Shown bytes (numeral ++ " " ++ unit)

/-- Below the next unit a numeral is at most 1024.00, which it is from 1023.995 units on. -/
theorem outgrown_iff {hundredths : Nat} (hk : 0 < k) (hk4 : k < 4)
    (hlargest : bytes < 1024 ^ (k + 1))
    (hnearest : IsNearest hundredths (100 * bytes) (1024 ^ k)) :
    hundredths ≤ 102400 ∧ (hundredths = 102400 ↔ 204799 * 1024 ^ k ≤ 200 * bytes) := by
  -- No size is a half between 1023.99 and 1024.00: 25 does not divide 204799 times a power of two.
  unfold IsNearest at hnearest
  obtain rfl | rfl | rfl : k = 1 ∨ k = 2 ∨ k = 3 := by omega
  all_goals
    norm_num at hlargest hnearest ⊢
    omega

theorem shown_formatSize (bytes : Nat) : Shown bytes (formatSize bytes) := by
  unfold formatSize
  split
  · next hplain => exact .plain hplain
  · next hgreat =>
    dsimp only
    rw [shownPower_eq]
    obtain ⟨hmost, hreached, hlargest⟩ := sizePower_spec bytes 4
    have hpos : 0 < sizePower bytes 4 := by
      by_contra hzero
      have hnone : sizePower bytes 4 = 0 := by omega
      rw [hnone] at hlargest
      omega
    generalize sizePower bytes 4 = k at *
    have hle : 1024 ^ k ≤ bytes := hreached.resolve_left (by omega)
    have hlt (hk : k < 4) : bytes < 1024 ^ (k + 1) := hlargest.resolve_left (by omega)
    have hindex : k < sizeUnits.length := Nat.lt_succ_of_le hmost
    have hunit : sizeUnits[k]? = some sizeUnits[k] := List.getElem?_eq_getElem hindex
    rw [List.getD_eq_getElem?_getD, hunit]
    refine .rounded hpos hunit hle hlt (isNumeral_twoPlaces _) (hundred_le_sizeHundredths hmost hle)
      (fun hsmall => isNearest_sizeHundredths hsmall k) ?_
    intro hk
    apply outgrown_iff hpos hk (hlt hk)
    apply isNearest_sizeHundredths
    have hpow : 1024 ^ (k + 1) ≤ 1024 ^ 4 := Nat.pow_le_pow_right (by omega) (by omega)
    have hbelow := hlt hk
    omega

end Units

/-! ## Numbers with a binary point -/

namespace Dyadic

variable {x : Dyadic} {c num den : Nat}

/-- The number is less than the part `1 / c` of `1 / den` away from `num / den`. -/
def IsClose (x : Dyadic) (c num den : Nat) : Prop :=
  c * (x.significand * den) < (c * num + 1) * 2 ^ x.scale ∧
    c * num * 2 ^ x.scale < c * (x.significand * den) + 2 ^ x.scale

/-- A quotient is rounded to a number that is closer the more binary places there are. -/
theorem isClose_nearest (hden : 0 < den) (h : num.log2 ≤ 52 + den.log2)
    (hc : c * den < 2 ^ (52 + den.log2 - num.log2)) : (nearest num den).IsClose c num den := by
  by_cases hzero : num = 0
  · subst hzero
    unfold IsClose nearest
    simp
  · obtain ⟨scale, hscale, hnearest⟩ := exists_nearest hzero h
    have hplaces : c * den < 2 ^ scale :=
      hc.trans_le (Nat.pow_le_pow_right Nat.two_pos (by omega))
    obtain ⟨hleast, hmost⟩ := isNearest_roundDiv (num * 2 ^ scale) hden
    have hleast' := Nat.mul_le_mul_left c hleast
    have hmost' := Nat.mul_le_mul_left c hmost
    rw [hnearest]
    constructor
    · dsimp only
      linarith
    · dsimp only
      linarith

/-- What is close to a proper fraction is at most one. -/
theorem IsClose.significand_le (h : x.IsClose 4 num den) (hnum : num < den) :
    x.significand ≤ 2 ^ x.scale := by
  have hscale : 0 < 2 ^ x.scale := Nat.two_pow_pos x.scale
  have hpart := Nat.mul_le_mul_right (2 ^ x.scale) hnum
  obtain ⟨hleast, -⟩ := h
  apply Nat.le_of_lt
  apply Nat.lt_of_mul_lt_mul_right (a := den)
  linarith

/-- A whole number below 63 and a number up to one have a sum with many binary places. -/
theorem exists_add {whole : Nat} (hx : x.significand ≤ 2 ^ x.scale) (hpos : 0 < whole)
    (hwhole : whole < 63) :
    ∃ places, 46 ≤ places ∧
      add whole x =
        ⟨roundDiv ((whole * 2 ^ x.scale + x.significand) * 2 ^ places) (2 ^ x.scale), places⟩ := by
  have hscale : 0 < 2 ^ x.scale := Nat.two_pow_pos x.scale
  have hpart := Nat.mul_le_mul_right (2 ^ x.scale) hwhole
  have hproduct := Nat.mul_pos hpos hscale
  have hsum : whole * 2 ^ x.scale + x.significand ≠ 0 := by omega
  have hlog : (whole * 2 ^ x.scale + x.significand).log2 < 6 + x.scale := by
    rw [Nat.log2_lt hsum, Nat.pow_add]
    linarith
  have hden : (2 ^ x.scale).log2 = x.scale := Nat.log2_two_pow
  have hup : (whole * 2 ^ x.scale + x.significand).log2 ≤ 52 + (2 ^ x.scale).log2 := by omega
  obtain ⟨places, hplaces, hnearest⟩ := exists_nearest hsum hup
  exact ⟨places, by omega, hnearest⟩

/-- The sum with a whole number is close as well. -/
theorem isClose_add {whole : Nat} (hx : x.IsClose 4 num den) (hnum : num < den)
    (hden : den < 2 ^ 44) (hpos : 0 < whole) (hwhole : whole < 63) :
    (add whole x).IsClose 2 (whole * den + num) den := by
  obtain ⟨places, hplaces, hadd⟩ := exists_add (hx.significand_le hnum) hpos hwhole
  obtain ⟨hleast, hmost⟩ := hx
  have hscale : 0 < 2 ^ x.scale := Nat.two_pow_pos x.scale
  have hpow : 2 ^ 46 ≤ 2 ^ places := Nat.pow_le_pow_right Nat.two_pos hplaces
  have hmany : 4 * den < 2 ^ places := by omega
  obtain ⟨hround, hround'⟩ :=
    isNearest_roundDiv ((whole * 2 ^ x.scale + x.significand) * 2 ^ places) hscale
  -- Both errors in parts of `2 ^ places * 2 ^ x.scale`: each is less than a quarter.
  have hsecond := Nat.mul_lt_mul_of_pos_right hmany hscale
  have hfirst := Nat.mul_lt_mul_of_pos_right hleast (Nat.two_pow_pos places)
  have hfirst' := Nat.mul_lt_mul_of_pos_right hmost (Nat.two_pow_pos places)
  have hrounded := Nat.mul_le_mul_right den hround
  have hrounded' := Nat.mul_le_mul_right den hround'
  rw [hadd]
  constructor
  · apply Nat.lt_of_mul_lt_mul_right (a := 2 ^ x.scale)
    dsimp only
    linarith
  · apply Nat.lt_of_mul_lt_mul_right (a := 2 ^ x.scale)
    dsimp only
    linarith

/-- A close number has a nearest numeral. -/
theorem isNearest_hundredths (hx : x.IsClose 2 num (100 * den)) :
    IsNearest x.hundredths num den := by
  obtain ⟨hleast, hmost⟩ := hx
  have hscale : 0 < 2 ^ x.scale := Nat.two_pow_pos x.scale
  obtain ⟨hround, hround'⟩ := isNearest_roundDiv (100 * x.significand) hscale
  change 2 * (x.hundredths * _) ≤ _ at hround
  change _ ≤ 2 * (x.hundredths * _) + _ at hround'
  have hround1 := Nat.mul_le_mul_right den hround
  have hround2 := Nat.mul_le_mul_right den hround'
  constructor
  · apply Nat.le_of_lt_succ
    apply Nat.lt_of_mul_lt_mul_right (a := 2 ^ x.scale)
    linarith
  · apply Nat.le_of_lt_succ
    apply Nat.lt_of_mul_lt_mul_right (a := 2 ^ x.scale)
    linarith

end Dyadic

/-! ## Durations -/

namespace Duration

variable {d : Duration}

/-- The length in nanoseconds. -/
def total (d : Duration) : Nat := d.seconds * nanosPerSecond + d.nanos

/-- The numeral of a duration below a minute is nearest to the number of seconds. -/
theorem isNearest_hundredths (hnanos : d.nanos < nanosPerSecond) (hpos : 0 < d.seconds)
    (hseconds : d.seconds < 60) : IsNearest d.hundredths d.total 10000000 := by
  have hlog : d.nanos.log2 < 30 := by
    rcases Nat.eq_zero_or_pos d.nanos with hzero | hsome
    · rw [hzero]
      decide
    · rw [Nat.log2_lt (by omega)]
      exact hnanos.trans (by decide)
  have hden : nanosPerSecond.log2 = 29 := by decide +kernel
  have hfraction : (Dyadic.nearest d.nanos nanosPerSecond).IsClose 4 d.nanos nanosPerSecond := by
    apply Dyadic.isClose_nearest
    · decide
    · omega
    · have hplaces : 2 ^ 52 ≤ 2 ^ (52 + nanosPerSecond.log2 - d.nanos.log2) :=
        Nat.pow_le_pow_right Nat.two_pos (by omega)
      exact Nat.lt_of_lt_of_le (by decide) hplaces
  have hsum := Dyadic.isClose_add hfraction hnanos (by decide) hpos (by omega)
  exact Dyadic.isNearest_hundredths hsum

/-- How a duration is shown. -/
inductive Shown (d : Duration) : String → Prop
  | millis (h : d.total < nanosPerSecond) : Shown d (toString (d.total / 1000000) ++ " 毫秒")
  | seconds {hundredths : Nat} {numeral : String} (hreached : nanosPerSecond ≤ d.total)
      (hbelow : d.total < 60 * nanosPerSecond) (hnumeral : IsNumeral numeral hundredths)
      (hleast : 100 ≤ hundredths) (hmost : hundredths ≤ 6000)
      (hnearest : IsNearest hundredths d.total 10000000)
      (houtgrown : hundredths = 6000 ↔ 59995000000 < d.total) :
      Shown d (numeral ++ " 秒")
  | minutes (h : 60 * nanosPerSecond ≤ d.total) :
      Shown d (toString (d.total / nanosPerSecond / 60) ++ " 分 " ++
        toString (d.total / nanosPerSecond % 60) ++ " 秒")

/-- From a second to a minute the numeral is from 1.00 to 60.00. -/
theorem hundredths_bounds (hreached : nanosPerSecond ≤ d.total)
    (hbelow : d.total < 60 * nanosPerSecond)
    (hnearest : IsNearest d.hundredths d.total 10000000) :
    100 ≤ d.hundredths ∧ d.hundredths ≤ 6000 := by
  unfold IsNearest at hnearest
  unfold nanosPerSecond at hreached hbelow
  omega

/-- Below a minute the numeral is 60.00 above 59.995 seconds only: a half goes to 59.99. -/
theorem outgrown_iff (hnanos : d.nanos < nanosPerSecond)
    (hbelow : d.total < 60 * nanosPerSecond)
    (hnearest : IsNearest d.hundredths d.total 10000000) :
    d.hundredths = 6000 ↔ 59995000000 < d.total := by
  by_cases htie : d.total = 59995000000
  · have hd : d = ⟨59, 995000000⟩ := by
      obtain ⟨seconds, nanos⟩ := d
      simp only [total, nanosPerSecond, mk.injEq] at htie hnanos ⊢
      omega
    rw [hd]
    decide +kernel
  · unfold IsNearest at hnearest
    unfold nanosPerSecond at hbelow
    omega

theorem millis_eq (d : Duration) : d.millis = d.total / 1000000 := by
  unfold millis total nanosPerSecond
  omega

theorem total_div (hnanos : d.nanos < nanosPerSecond) : d.total / nanosPerSecond = d.seconds := by
  rw [total, Nat.add_comm, Nat.add_mul_div_right _ _ (by decide), Nat.div_eq_of_lt hnanos,
    Nat.zero_add]

theorem shown_format (hnanos : d.nanos < nanosPerSecond) : d.Shown d.format := by
  have hsecond : nanosPerSecond = 1000 * 1000000 := rfl
  unfold format
  rw [millis_eq, ← total_div hnanos]
  split
  · next hshort =>
    apply Shown.millis
    omega
  · next hlong =>
    split
    · next hshort =>
      have hreached : nanosPerSecond ≤ d.total := by omega
      have hbelow : d.total < 60 * nanosPerSecond := by omega
      have hpos : 0 < d.seconds := by
        rw [← total_div hnanos]
        exact Nat.div_pos hreached (by decide)
      have hseconds : d.seconds < 60 := by
        rw [← total_div hnanos]
        exact Nat.div_lt_of_lt_mul (Nat.mul_comm _ _ ▸ hbelow)
      have hnearest := isNearest_hundredths hnanos hpos hseconds
      obtain ⟨hleast, hmost⟩ := hundredths_bounds hreached hbelow hnearest
      exact .seconds hreached hbelow (isNumeral_twoPlaces _) hleast hmost hnearest
        (outgrown_iff hnanos hbelow hnearest)
    · next hminutes =>
      apply Shown.minutes
      omega

end Duration

namespace Units

/-- **Numerals.** A size is shown in the largest unit that it reaches. The numeral is at least 1.00, and
where there is a greater unit it is below 1024.00 exactly when the size is below 1023.995 units. A
duration from a second to a minute is shown in seconds. The numeral is at least 1.00, and it is below
60.00 exactly when the duration is not above 59.995 seconds. -/
theorem shown_of_quantities (bytes : Nat) (d : Duration) (hnanos : d.nanos < Duration.nanosPerSecond) :
    Shown bytes (formatSize bytes) ∧ d.Shown d.format := by
  constructor
  · exact shown_formatSize bytes
  · exact Duration.shown_format hnanos

/-- The last quantities before the numerals outgrow their units. -/
theorem shown_of_last_quantities :
    Shown 1048570 "1023.99 KB" ∧ Duration.Shown ⟨59, 995000000⟩ "59.99 秒" := by
  have hsize : formatSize 1048570 = "1023.99 KB" := by decide +kernel
  have hduration : Duration.format ⟨59, 995000000⟩ = "59.99 秒" := by decide +kernel
  rw [← hsize, ← hduration]
  exact shown_of_quantities 1048570 ⟨59, 995000000⟩ (by decide)

/-- A byte less than a megabyte, and a millisecond less than a minute. -/
theorem numerals_outgrown :
    formatSize 1048575 = "1024.00 KB" ∧ formatSize 1048576 = "1.00 MB" ∧
      Duration.format ⟨59, 999000000⟩ = "60.00 秒" := by
  decide +kernel

end Units

end IgnoreAtlas
