import ShortCircuit.Formula.Basic

/-!
# Nodes of a decision table

A node stands for the piece of code that starts at its key: a test with two successors, a value
that a path produces, or a test whose successors have been folded into its statement.
-/

namespace ShortCircuit

/-- What a path that leaves the tests produces. `nil` also stands for a path that writes nothing. -/
inductive LeafValue where
  | bool (value : Bool)
  | nil
  | text (value : String)
deriving DecidableEq, Repr

namespace LeafValue

/-- The value that a rendered text denotes; three literals are known. -/
def ofText (text : String) : LeafValue :=
  if text = "true" then .bool true
  else if text = "false" then .bool false
  else if text = "nil" then .nil
  else .text text

/-- The truth value of a boolean leaf. -/
def bool? : LeafValue → Option Bool
  | .bool b => some b
  | _ => none

end LeafValue

/-- A test: control goes to `onTrue` when the statement holds and to `onFalse` otherwise. -/
structure Branch where
  statement : Formula
  onTrue : Nat
  onFalse : Nat
deriving DecidableEq, Repr

/-- What a node is. -/
inductive Content where
  | branch (branch : Branch)
  | leaf (value : LeafValue)
  | closed (statement : Formula)
deriving DecidableEq, Repr

/-- A node with its key, the keys of the branches that lead to it, and the register that its test
assigns. -/
structure Node where
  key : Nat
  content : Content
  parents : List Nat := []
  assigns : Option UInt8 := none
deriving DecidableEq, Repr

namespace Node

/-- The test of a branch. -/
def branch? (n : Node) : Option Branch :=
  match n.content with
  | .branch b => some b
  | _ => none

/-- Whether the node is a test. -/
def isBranch (n : Node) : Bool := n.branch?.isSome

/-- The keys that the node leads to. -/
def successors (n : Node) : List Nat :=
  match n.content with
  | .branch b => [b.onTrue, b.onFalse]
  | _ => []

/-- Whether the node leads to `key`. -/
def leadsTo (n : Node) (key : Nat) : Bool := n.successors.contains key

/-- The statement of a branch or of a folded test. -/
def statement? (n : Node) : Option Formula :=
  match n.content with
  | .branch b => some b.statement
  | .closed s => some s
  | .leaf _ => none

/-- The value of a leaf. -/
def value? (n : Node) : Option LeafValue :=
  match n.content with
  | .leaf v => some v
  | _ => none

/-- The truth value of a boolean leaf. -/
def bool? (n : Node) : Option Bool := n.value?.bind LeafValue.bool?

/-- Whether the node is a boolean leaf. -/
def isBool (n : Node) : Bool := n.bool?.isSome

/-- Turns a branch into a folded test; other nodes stay. -/
def close (n : Node) : Node :=
  match n.content with
  | .branch b => { n with content := .closed b.statement }
  | _ => n

end Node

end ShortCircuit
