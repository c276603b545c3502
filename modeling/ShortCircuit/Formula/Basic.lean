import ShortCircuit.Text.Comparison

/-!
# Formulas

An and/or tree over rendered texts. Every node carries its own flag that says whether it is
negated, and negating a formula flips the flags of all nodes, so a node can be rendered without
looking at its ancestors.

* `Formula.render` writes a formula; brackets stand exactly where the connective changes.
* `Formula.eval` is the truth value under an assignment to the texts, `Formula.atoms` the texts
  from left to right.
* `Formula.eval_negate`: negating a formula negates its value.
-/

namespace ShortCircuit

/-- An and/or tree whose leaves are rendered texts. -/
inductive Formula where
  | atom (text : String) (negated : Bool)
  | join (op : Connective) (left right : Formula) (negated : Bool)
deriving DecidableEq, Repr

namespace Formula

/-- The formula of one text. -/
def ofText (text : String) : Formula := .atom text false

/-- Joins two formulas. -/
def combine (left : Formula) (op : Connective) (right : Formula) : Formula :=
  .join op left right false

/-- Flips the flag of every node. -/
def negate : Formula → Formula
  | .atom text n => .atom text (!n)
  | .join op l r n => .join op l.negate r.negate (!n)

/-- Whether the formula is a single text. -/
def isAtom : Formula → Bool
  | .atom .. => true
  | .join .. => false

/-- Whether the flag of the outermost node is set. -/
def isNegated : Formula → Bool
  | .atom _ n | .join _ _ _ n => n

/-- The connective a node shows: its own, or the other one under negation. -/
def shown (op : Connective) (negated : Bool) : Connective := if negated then op.dual else op

/-- The connective that the outermost node shows. -/
def connective? : Formula → Option Connective
  | .atom .. => none
  | .join op _ _ n => some (shown op n)

/-- Whether a formula needs brackets below `outer`: it is a join that shows the other one. -/
def needsBrackets (f : Formula) (outer : Connective) : Bool :=
  match f.connective? with
  | none => false
  | some op => op ≠ outer

/-- Puts brackets around a text on demand. -/
def bracket (on : Bool) (text : String) : String :=
  if on then "(" ++ text ++ ")" else text

/-- The formula as source text. -/
def render : Formula → String
  | .atom text n => if n then Comparison.negate text else text
  | .join op l r n =>
    let token := shown op n
    bracket (l.needsBrackets token) l.render ++ " " ++ token.symbol ++ " "
      ++ bracket (r.needsBrackets token) r.render

/-- The truth value under an assignment of truth values to texts. -/
def eval (v : String → Bool) : Formula → Bool
  | .atom text n => v text ^^ n
  | .join op l r n => (shown op n).apply (l.eval v) (r.eval v)

/-- The texts from left to right. -/
def atoms : Formula → List String
  | .atom text _ => [text]
  | .join _ l r _ => l.atoms ++ r.atoms

@[simp]
theorem negate_negate (f : Formula) : f.negate.negate = f := by
  induction f with
  | atom => simp [negate]
  | join op l r n hl hr => simp [negate, hl, hr]

theorem dual_shown (op : Connective) (n : Bool) : (shown op n).dual = shown op (!n) := by
  cases n <;> simp [shown]

@[simp]
theorem eval_negate (v : String → Bool) (f : Formula) : f.negate.eval v = !f.eval v := by
  induction f with
  | atom text n => simp [negate, eval]
  | join op l r n hl hr => simp [negate, eval, hl, hr, Connective.not_apply, dual_shown]

@[simp]
theorem atoms_negate (f : Formula) : f.negate.atoms = f.atoms := by
  induction f with
  | atom => rfl
  | join op l r n hl hr => simp [negate, atoms, hl, hr]

end Formula

end ShortCircuit
