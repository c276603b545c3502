/-!
# Double-precision numbers

A number is its 64 bits. Every finite one is a whole multiple of `10 ^ -1074`, so its magnitude is
kept exactly as a natural number of such units, and decimal text is cut from that number.

* `Binary64.shortest` is the point of the coarsest decimal grid that still reads back as the
  number: grids are tried from coarse to fine, and the nearer of two points wins.
* `Binary64.text` writes a number as an expression, always positionally.
-/

namespace ShortCircuit

/-- A double-precision number, given by its bits. -/
structure Binary64 where
  bits : UInt64
deriving DecidableEq, Repr

namespace Binary64

/-- Decimal places that every finite number fits into. -/
def places : Nat := 1074

/-- The biased exponent field. -/
def exponentField (x : Binary64) : Nat := x.bits.toNat / Nat.pow 2 52 % 2048

/-- The fraction field. -/
def fraction (x : Binary64) : Nat := x.bits.toNat % Nat.pow 2 52

/-- Whether the sign bit is set. -/
def isNegative (x : Binary64) : Bool := x.bits.toNat / Nat.pow 2 63 = 1

/-- Whether the bits stand for no number. -/
def isNaN (x : Binary64) : Bool := x.exponentField = 2047 && x.fraction != 0

/-- Whether the number is an infinity. -/
def isInfinite (x : Binary64) : Bool := x.exponentField = 2047 && x.fraction = 0

/-- The significand with its leading bit. -/
def significand (x : Binary64) : Nat :=
  if x.exponentField = 0 then x.fraction else Nat.pow 2 52 + x.fraction

/-- The distance to the next larger magnitude, in units of `10 ^ -1074`. -/
def gap (x : Binary64) : Nat := Nat.pow 2 (x.exponentField - 1) * Nat.pow 5 places

/-- The magnitude in units of `10 ^ -1074`. -/
def magnitude (x : Binary64) : Nat := x.significand * x.gap

/-- Whether a magnitude in units of `10 ^ -1074` rounds to `x`: it lies less than half a gap away,
or exactly half a gap when the significand is even. Below a power of two the gap is halved. -/
def readsBack (x : Binary64) (units : Nat) : Bool :=
  let value := 4 * x.magnitude
  let below := if x.fraction = 0 && 1 < x.exponentField then x.gap else 2 * x.gap
  let above := 2 * x.gap
  if x.significand % 2 = 0 then
    value ≤ 4 * units + below && 4 * units ≤ value + above
  else
    value < 4 * units + below && 4 * units < value + above

/-- Tries the grids of spacing `10 ^ j` for decreasing `j`. -/
def shortestFrom (x : Binary64) : Nat → Nat
  | 0 => x.magnitude
  | j + 1 =>
    let step := Nat.pow 10 (j + 1)
    let low := x.magnitude / step * step
    let high := low + step
    match x.readsBack low, x.readsBack high with
    | true, true => if x.magnitude - low < high - x.magnitude then low else high
    | true, false => low
    | false, true => high
    | false, false => x.shortestFrom j

/-- The magnitude with the fewest digits that reads back as `x`, in units of `10 ^ -1074`. -/
def shortest (x : Binary64) : Nat := x.shortestFrom (toString x.magnitude).length

/-- A number of units of `10 ^ -1074` as positional text without trailing zeros. -/
def positional (units : Nat) : String :=
  let whole := toString (units / Nat.pow 10 places)
  let rest := (toString (units % Nat.pow 10 places)).toList.leftpad places '0'
  let digits := (rest.reverse.dropWhile (· == '0')).reverse
  if digits.isEmpty then whole else whole ++ "." ++ String.ofList digits

/-- Whether the number is whole and below `10 ^ 15` in magnitude. -/
def isSmallInteger (x : Binary64) : Bool :=
  x.magnitude % Nat.pow 10 places = 0 && x.magnitude < Nat.pow 10 15 * Nat.pow 10 places

/-- The integer nearest to zero on the way from `x`. -/
def truncate (x : Binary64) : Int :=
  let n : Int := (x.magnitude / Nat.pow 10 places : Nat)
  if x.isNegative then -n else n

/-- The number as an expression. Zero has no sign, and values without a literal are written as
expressions that yield them. -/
def text (x : Binary64) : String :=
  if x.isNaN then "(0/0)"
  else if x.isInfinite then (if x.isNegative then "-math.huge" else "math.huge")
  else if x.isSmallInteger then toString x.truncate
  else (if x.isNegative then "-" else "") ++ positional x.shortest

end Binary64

end ShortCircuit
