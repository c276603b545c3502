/-!
# Rounding of quotients

Exact rounding in natural-number arithmetic: a quotient to the nearest integer, a fraction to the
nearest number with a significand of 53 bits, and numbers with a fixed count of decimals. A half
goes to the even neighbour everywhere.
-/

namespace ShortCircuit

/-- `num / den` rounded to the nearest integer, a half to the even one. -/
def roundDiv (num den : Nat) : Nat :=
  let q := num / den
  let r := num % den
  if 2 * r < den ∨ (2 * r = den ∧ q % 2 = 0) then q else q + 1

/-- A fraction of natural numbers. -/
structure Fraction where
  num : Nat
  den : Nat
deriving DecidableEq, Repr

namespace Fraction

/-- The fraction `significand * 2 ^ exponent`. -/
def ofScaled (significand : Nat) (exponent : Int) : Fraction :=
  if exponent < 0 then ⟨significand, Nat.pow 2 (-exponent).toNat⟩
  else ⟨significand * Nat.pow 2 exponent.toNat, 1⟩

/-- `x / 2 ^ exponent` rounded to an integer. -/
def roundScaled (x : Fraction) (exponent : Int) : Nat :=
  if exponent < 0 then roundDiv (x.num * Nat.pow 2 (-exponent).toNat) x.den
  else roundDiv x.num (x.den * Nat.pow 2 exponent.toNat)

/-- Whether `x / 2 ^ exponent` is at least `2 ^ 52`. -/
def fillsSignificand (x : Fraction) (exponent : Int) : Bool :=
  if exponent < 0 then Nat.pow 2 52 * x.den ≤ x.num * Nat.pow 2 (-exponent).toNat
  else Nat.pow 2 52 * x.den * Nat.pow 2 exponent.toNat ≤ x.num

/-- The nearest number with a significand of 53 bits and an unbounded exponent. -/
def nearestBinary (x : Fraction) : Fraction :=
  if x.num = 0 then ⟨0, 1⟩ else
    let high : Int := (x.num.log2 : Int) - (x.den.log2 : Int) - 52
    let exponent := if x.fillsSignificand high then high else high - 1
    ofScaled (x.roundScaled exponent) exponent

/-- The quotient of two fractions. -/
def div (x y : Fraction) : Fraction := ⟨x.num * y.den, x.den * y.num⟩

/-- A fraction times a natural number. -/
def scale (x : Fraction) (n : Nat) : Fraction := ⟨x.num * n, x.den⟩

end Fraction

/-- A count of `10 ^ places` parts as text: the whole part, a point and `places` digits. -/
def fixedText (places parts : Nat) : String :=
  let digits := (toString (parts % Nat.pow 10 places)).toList
  toString (parts / Nat.pow 10 places) ++ "." ++ String.ofList (digits.leftpad places '0')

end ShortCircuit
