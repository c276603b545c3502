/-!
# Operators of conditions

The six comparison operators and the two short-circuit connectives.
-/

namespace ShortCircuit

/-- A comparison operator of the source language. -/
inductive Comparator where
  | eq | ne | le | ge | lt | gt
deriving DecidableEq, Repr

namespace Comparator

/-- All operators, those with two characters first. -/
def all : List Comparator := [.eq, .ne, .le, .ge, .lt, .gt]

/-- The operator as written. -/
def symbol : Comparator → String
  | .eq => "==" | .ne => "~=" | .le => "<=" | .ge => ">=" | .lt => "<" | .gt => ">"

/-- The operator that holds exactly when this one does not. -/
def negate : Comparator → Comparator
  | .eq => .ne | .ne => .eq | .lt => .ge | .ge => .lt | .gt => .le | .le => .gt

/-- The operator with the same meaning after exchanging the operands. -/
def swap : Comparator → Comparator
  | .eq => .eq | .ne => .ne | .lt => .gt | .gt => .lt | .ge => .le | .le => .ge

@[simp]
theorem negate_negate (op : Comparator) : op.negate.negate = op := by cases op <;> rfl

end Comparator

/-- A short-circuit connective. -/
inductive Connective where
  | and | or
deriving DecidableEq, Repr

namespace Connective

/-- The connective as written. -/
def symbol : Connective → String
  | .and => "and" | .or => "or"

/-- The other connective. -/
def dual : Connective → Connective
  | .and => .or | .or => .and

/-- The connective on truth values. -/
def apply : Connective → Bool → Bool → Bool
  | .and, x, y => x && y
  | .or, x, y => x || y

@[simp]
theorem dual_dual (op : Connective) : op.dual.dual = op := by cases op <;> rfl

/-- De Morgan's law. -/
theorem not_apply (op : Connective) (x y : Bool) :
    (!op.apply x y) = op.dual.apply (!x) (!y) := by
  cases op <;> cases x <;> cases y <;> rfl

end Connective

end ShortCircuit
