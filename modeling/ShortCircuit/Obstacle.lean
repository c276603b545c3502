import ShortCircuit.Registers.Frame

/-!
# Why a condition cannot be recovered

The causes for which a chain of tests stays a sequence of jumps, and their texts.
-/

namespace ShortCircuit

/-- Why a chain of tests was not reduced to one formula. -/
inductive Obstacle where
  | tooManyExits (count : Nat)
  | tooFewExits (count : Nat)
  | stalled (remaining : Nat)
  | execution (cause : ExecutionError)
  | missingJump (pc : Nat)
  | unresolvedPath (pc : Nat)
  | backwardLoop
deriving DecidableEq, Repr

/-- The text of an obstacle. -/
def Obstacle.message : Obstacle → String
  | .tooManyExits n => toString n ++ " external jump targets, expected 2"
  | .tooFewExits n => "only " ++ toString n ++ " external jump target(s), expected 2"
  | .stalled n => "reduction stalled with " ++ toString n ++ " unresolved nodes"
  | .execution e => e.message
  | .missingJump pc => "conditional at pc " ++ toString pc ++ " is not followed by a jump"
  | .unresolvedPath pc =>
    "no value could be resolved for the path starting at pc " ++ toString pc
  | .backwardLoop => "loop condition jumps back past its own start on both paths"

/-- The failure to recover the condition that starts at a place: an obstacle, or two paths that
store to different destinations. -/
inductive ConditionError where
  | inconclusive (start : Nat) (obstacle : Obstacle)
  | conflictingTargets (first second : String)
deriving DecidableEq, Repr

/-- The text of a failure. -/
def ConditionError.message : ConditionError → String
  | .inconclusive start obstacle =>
    "inconclusive condition at pc " ++ toString start ++ ": " ++ obstacle.message
  | .conflictingTargets first second =>
    "condition assigns to both \x60" ++ first ++ "\x60 and \x60" ++ second ++ "\x60"

end ShortCircuit
