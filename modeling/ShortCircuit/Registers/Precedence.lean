import ShortCircuit.Formula.Operator

/-!
# Rendered expressions

An expression is kept as its text and the binding strength of its outermost operator, which decides
where brackets are needed.
-/

namespace ShortCircuit

/-- Binding strength; larger binds tighter. -/
abbrev Precedence := Nat

namespace Precedence

/-- Strength of `or`. -/
def or : Precedence := 1
/-- Strength of `and`. -/
def and : Precedence := 2
/-- Strength of comparisons. -/
def comparison : Precedence := 3
/-- Strength of `..`. -/
def concat : Precedence := 4
/-- Strength of `+` and `-`. -/
def additive : Precedence := 5
/-- Strength of `*`, `/` and `%`. -/
def multiplicative : Precedence := 6
/-- Strength of unary operators. -/
def unary : Precedence := 7
/-- Strength of `^`. -/
def power : Precedence := 8
/-- Strength of indexing and method selection. -/
def suffix : Precedence := 10
/-- Strength of names, literals and calls. -/
def atom : Precedence := 20

/-- The strength of a formula that shows the given connective. -/
def ofConnective : Option Connective → Precedence
  | some .or => or
  | some .and => and
  | none => comparison

end Precedence

/-- The text of an expression with the strength of its outermost operator. -/
structure Rendered where
  text : String
  precedence : Precedence
deriving DecidableEq, Repr

namespace Rendered

/-- A text that never needs brackets. -/
def atom (text : String) : Rendered := ⟨text, Precedence.atom⟩

/-- A constant: a leading minus sign binds like a unary operator. -/
def constant (text : String) : Rendered :=
  ⟨text, if text.toList.head? = some '-' then Precedence.unary else Precedence.atom⟩

/-- The text, in brackets if it binds weaker than `least`. -/
def wrap (e : Rendered) (least : Precedence) : String :=
  if e.precedence < least then "(" ++ e.text ++ ")" else e.text

/-- The text as an operand of a comparison. -/
def wrapOperand (e : Rendered) : String := e.wrap (Precedence.comparison + 1)

end Rendered

end ShortCircuit
