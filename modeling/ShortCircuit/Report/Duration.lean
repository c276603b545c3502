import ShortCircuit.Number.Rounding

/-!
# Durations

A duration is a whole number of nanoseconds. It is shown with two decimals in the largest unit of
which it has at least one, and rounding never changes the unit.
-/

namespace ShortCircuit

/-- A length of time. -/
structure Duration where
  nanoseconds : Nat
deriving DecidableEq, Repr

namespace Duration

/-- No time. -/
def zero : Duration := ⟨0⟩

/-- The sum of durations. -/
def sum (ds : List Duration) : Duration := ⟨(ds.map (·.nanoseconds)).foldr Nat.add 0⟩

/-- A duration divided among `n`, cut to nanoseconds. -/
def divide (d : Duration) (n : Nat) : Duration := ⟨d.nanoseconds / n⟩

/-- The unit a duration is shown in: its length in nanoseconds and its sign. -/
def unit (d : Duration) : Nat × String :=
  if 1000000000 ≤ d.nanoseconds then (1000000000, "s")
  else if 1000000 ≤ d.nanoseconds then (1000000, "ms")
  else if 1000 ≤ d.nanoseconds then (1000, "µs")
  else (1, "ns")

/-- The duration with two decimals. -/
def text (d : Duration) : String :=
  let (length, sign) := d.unit
  fixedText 2 (roundDiv (d.nanoseconds * 100) length) ++ sign

/-- The share of `part` in `whole` in tenths of a percent, computed in double precision. -/
def permille (part whole : Duration) : Nat :=
  if whole.nanoseconds = 0 then 0
  else
    let p := (Fraction.mk part.nanoseconds 1).nearestBinary
    let w := (Fraction.mk whole.nanoseconds 1).nearestBinary
    let percent := ((p.div w).nearestBinary.scale 100).nearestBinary
    roundDiv (percent.num * 10) percent.den

end Duration

end ShortCircuit
