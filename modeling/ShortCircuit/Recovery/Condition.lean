import ShortCircuit.Decision.Fold
import ShortCircuit.Recovery.Path

/-!
# Conditions

The condition that starts at a place: its tests are collected, its exits get values, and the table
is folded to one statement. The analysis works inside a scope of the register stack, so the caller's
registers are the same afterwards, whatever the result is.

* `Condition.startingAt` recovers the condition that starts at a place.
* `Digest.ofResult` is a flat summary of the result.
-/

namespace ShortCircuit

/-- How a condition is used: to choose between `body`, when it holds, and `exit`; or as a value
consumed at a place, stored to `target` or left in `register`. -/
inductive Use where
  | test (body exit : Nat)
  | value (consumer : Nat) (target : Option String) (register : Option UInt8)
deriving DecidableEq, Repr

/-- A recovered condition: where it starts, where the code after it goes on, what it says and how it
is used. -/
structure Condition where
  start : Nat
  resume : Nat
  statement : Formula
  use : Use
deriving DecidableEq, Repr

namespace Condition

/-- The consumer of a value, or the place reached when a test fails. -/
def endPc (c : Condition) : Nat :=
  match c.use with
  | .test _ exit => exit
  | .value consumer _ _ => consumer

/-- The place reached when a test holds. -/
def body? (c : Condition) : Option Nat :=
  match c.use with
  | .test body _ => some body
  | .value .. => none

/-- Whether the condition is used as a value. -/
def isValue (c : Condition) : Bool :=
  match c.use with
  | .test .. => false
  | .value .. => true

/-- The destination that the value is stored to. -/
def target? (c : Condition) : Option String :=
  match c.use with
  | .test .. => none
  | .value _ target _ => target

/-- The register that holds the value. -/
def register? (c : Condition) : Option UInt8 :=
  match c.use with
  | .test .. => none
  | .value _ _ register => register

/-- The leaf at a place where a test is left: the body means true and the exit false. No other place
has a value. -/
def testLeaf (body exit key : Nat) : Except Obstacle Node :=
  if key = body then .ok { key, content := .leaf (.bool true) }
  else if key = exit then .ok { key, content := .leaf (.bool false) }
  else .error (.unresolvedPath key)

/-- The leaves at the places where a test is left, in order. -/
def testLeaves (body exit : Nat) (exits : List Nat) : Except Obstacle (List Node) :=
  exits.mapM (testLeaf body exit)

/-- Destination and register of a value consumed at a place. The register is that of the final pair
of boolean loads, else the one that a test assigns; a store at the consumer gives the destination
when it stores that register, and the register when none is known. -/
def valueUse (f : Frame) (consumer : Nat) (assigned : Option UInt8) (target : Option String) :
    Use :=
  let code := f.function.code
  let register :=
    if 2 ≤ consumer && Code.isBooleanEnd code (consumer - 2) then
      code[consumer - 2]?.map (·.a)
    else assigned
  match code[consumer]?.bind f.assignment? with
  | none => .value consumer target register
  | some a =>
    let target :=
      if target.isNone && (register.isNone || register = a.source) then some a.target else target
    .value consumer target (register <|> a.source)

/-- Gives a value to every exit of the chain; the destination is the one that paths store to. -/
def close (function : Prototype) (start : Nat) (context : Context) (t : Table) :
    Analysis (Table × Option String) := do
  let (leaves, target) ← match context with
    | .test body exit => do
      let leaves ← Analysis.ofExcept start (testLeaves body exit t.exits)
      pure (leaves, none)
    | .value consumer => Path.leaves function start consumer none t.exits
  return ((leaves.foldl Table.insert t).link, target)

/-- The condition of a chain with at least one test. -/
def ofChain (function : Prototype) (inLoop : Bool) (start : Nat) (chain : Chain) :
    Analysis Condition := do
  let context ← Analysis.ofExcept start (Context.ofChain chain inLoop start)
  let (table, target) ← close function start context (chain.table start)
  let (outcome, reduced) := table.reduce
  Analysis.ofExcept start outcome
  let statement ← Analysis.ofExcept start reduced.statement
  match context with
  | .test body exit =>
    return { start, resume := chain.resume start, statement, use := .test body exit }
  | .value consumer =>
    let f ← Analysis.frame function consumer
    let use := valueUse f consumer chain.register? target
    return { start, resume := consumer, statement, use }

/-- The condition that starts at a place; `none` when no test belongs to it. `inLoop` says that the
chain closes a loop, so that backward jumps are part of it. -/
def startingAt (function : Prototype) (inLoop : Bool) (start : Nat) : Analysis (Option Condition) :=
  RegisterStack.inScope do
    let chain ← Chain.collect function inLoop start
    if chain.pairs.isEmpty then return none
    return some (← ofChain function inLoop start chain)

end Condition

/-- A flat summary of an analysis: whether instructions were consumed and how many, and the text. -/
structure Digest where
  consumed : Bool
  span : Nat
  endPc : Nat
  text : String
  isValue : Bool
  target : Option String
deriving DecidableEq, Repr

namespace Digest

/-- The summary of a recovered condition. -/
def ofCondition (c : Condition) : Digest :=
  { consumed := true
    span := c.resume - c.start
    endPc := c.endPc
    text := c.statement.render
    isValue := c.isValue
    target := c.target? }

/-- The summary of any result; without a condition nothing is consumed. -/
def ofResult (start : Nat) : Except ConditionError (Option Condition) → Digest
  | .ok (some c) => ofCondition c
  | _ =>
    { consumed := false
      span := 0
      endPc := start
      text := ""
      isValue := false
      target := none }

end Digest

end ShortCircuit
