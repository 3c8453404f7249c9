import IgnoreAtlas.Number

/-!
# Durations for people

Up to 999 milliseconds a duration is a whole number of milliseconds; up to 59999 it is a number of
seconds with two places; from a minute on it is minutes and seconds. The choice looks at whole
milliseconds, the shown seconds are rounded.
-/

namespace IgnoreAtlas

/-- A length of time: seconds, and billionths of a second below one second. -/
structure Duration where
  seconds : Nat
  nanos : Nat
  deriving DecidableEq

namespace Duration

/-- Nanoseconds in a second. -/
def nanosPerSecond : Nat := 1000000000

/-- The duration with these numbers; billionths from a second on are carried over. The seconds of a
duration fit in 64 bits. -/
def ofNumbers? (seconds nanos : Nat) : Option Duration :=
  let total := seconds + nanos / nanosPerSecond
  if total < values64 then some ⟨total, nanos % nanosPerSecond⟩ else none

/-- The whole milliseconds. -/
def millis (d : Duration) : Nat := d.seconds * 1000 + d.nanos / 1000000

/-- The seconds in hundredths: the fraction and the sum are each rounded to 53 bits first. -/
def hundredths (d : Duration) : Nat :=
  (Dyadic.add d.seconds (Dyadic.nearest d.nanos nanosPerSecond)).hundredths

/-- The duration as it is shown. -/
def format (d : Duration) : String :=
  if d.millis ≤ 999 then toString d.millis ++ " 毫秒"
  else if d.millis ≤ 59999 then twoPlaces d.hundredths ++ " 秒"
  else toString (d.seconds / 60) ++ " 分 " ++ toString (d.seconds % 60) ++ " 秒"

end Duration

end IgnoreAtlas
