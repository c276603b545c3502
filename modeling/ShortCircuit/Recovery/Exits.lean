import ShortCircuit.Recovery.Chain

/-!
# Exits of a chain

A chain either computes a value or decides a jump. It computes a value when that value is consumed
and no test leaves the range up to the consumer. Otherwise exactly two places outside the chain are
reached; the smaller one is the body, unless a loop condition jumps back to repeat the loop.
-/

namespace ShortCircuit

/-- What a chain is for: a value consumed at a place, or a choice between two places, of which
`body` is reached when the condition holds. -/
inductive Context where
  | value (consumer : Nat)
  | test (body exit : Nat)
deriving DecidableEq, Repr

namespace Table

/-- The places that branches lead to and that are no nodes. -/
def exits (t : Table) : List Nat := t.targets.filter fun key => !t.contains key

end Table

namespace Context

/-- Whether some branch leaves the range from the start to the consumer. -/
def escapes (t : Table) (start consumer : Nat) : Bool :=
  t.targets.any fun key => consumer < key || key < start

/-- The context of a chain that decides a jump. -/
def ofExits (t : Table) (inLoop : Bool) (start : Nat) : Except Obstacle Context :=
  match t.exits with
  | [first, second] =>
    if inLoop && second < start then .error .backwardLoop
    else if inLoop && first < start then .ok (.test second first)
    else .ok (.test first second)
  | exits =>
    if 2 < exits.length then .error (.tooManyExits exits.length)
    else .error (.tooFewExits exits.length)

/-- The context of a chain. -/
def ofChain (c : Chain) (inLoop : Bool) (start : Nat) : Except Obstacle Context :=
  let t := c.table start
  match c.consumer with
  | none => ofExits t inLoop start
  | some consumer =>
    if escapes t start consumer then ofExits t inLoop start else .ok (.value consumer)

end Context

end ShortCircuit
