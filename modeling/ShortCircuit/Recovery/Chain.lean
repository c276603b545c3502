import ShortCircuit.Decision.Table
import ShortCircuit.Obstacle
import ShortCircuit.Recovery.Code
import ShortCircuit.Registers.Execution

/-!
# Chains of tests

Starting at a place in the code, the conditionals that belong to one condition are collected, each
with the jump after it. Instructions between them only compute values; they are executed, so that
each test is rendered with the values it reads.

* `Pair` is one recorded test, `Pair.node` the branch it stands for.
* `Chain.collect` collects the tests from a place on.
* `Chain.table` is the table of their branches.
-/

namespace ShortCircuit

/-- Analysis of one condition: may fail and works on the registers. -/
abbrev Analysis := EStateM ConditionError RegisterStack

namespace Analysis

/-- Turns an obstacle into the failure of the analysis that started at a place. -/
def ofExcept {α : Type} (start : Nat) : Except Obstacle α → Analysis α
  | .ok a => pure a
  | .error obstacle => throw (.inconclusive start obstacle)

/-- Executes an instruction as part of the analysis that started at a place. -/
def execute (function : Prototype) (start pc : Nat) (i : Instruction) : Analysis Unit :=
  EStateM.adaptExcept (fun e => .inconclusive start (.execution e))
    (RegisterStack.execute function pc i)

/-- The frame at a place with the current registers. -/
def frame (function : Prototype) (pc : Nat) : Analysis Frame := do
  return (← get).frame function pc

end Analysis

/-- The operator of a machine test. -/
def Relation.comparator : Relation → Comparator
  | .eq => .eq
  | .lt => .lt
  | .le => .le

/-- What a conditional tests, as text. A constant on the left of a variable changes sides. -/
def Frame.testText (f : Frame) (i : Instruction) : String :=
  match i.role with
  | .comparison relation =>
    let text :=
      f.operandText i.b ++ " " ++ relation.comparator.symbol ++ " " ++ f.operandText i.c
    if isConstantField i.b && !isConstantField i.c then Comparison.swap text else text
  | .testSet => f.operandText i.b
  | _ => f.operandText i.a.toUInt16

/-- A conditional with the jump after it: where its segment of code starts, where it stands, where
the jump goes, and what it tests. -/
structure Pair where
  key : Nat
  pc : Nat
  instruction : Instruction
  target : Nat
  text : String
deriving DecidableEq, Repr

namespace Pair

/-- The pair of the conditional at a frame. -/
def ofFrame (f : Frame) (key : Nat) (i : Instruction) (target : Nat) : Pair :=
  { key, pc := f.pc, instruction := i, target, text := f.testText i }

/-- The register that the test assigns. -/
def assigns? (p : Pair) : Option UInt8 :=
  if p.instruction.role = .testSet then some p.instruction.a else none

/-- The branch of a test: the jump is taken when the outcome equals the polarity, otherwise control
passes the jump. -/
def branch (p : Pair) : Branch :=
  if p.instruction.polarity then ⟨.ofText p.text, p.target, p.pc + 2⟩
  else ⟨.ofText p.text, p.pc + 2, p.target⟩

/-- The node of a test. -/
def node (p : Pair) : Node := { key := p.key, content := .branch p.branch, assigns := p.assigns? }

end Pair

/-- The tests of one condition, and the place at which a value made from them would be consumed. -/
structure Chain where
  pairs : List Pair
  consumer : Option Nat
deriving DecidableEq, Repr

namespace Chain

/-- No further tests. -/
def stop : Chain := ⟨[], none⟩

/-- No further tests; the value is consumed at a place. -/
def stopAt (pc : Nat) : Chain := ⟨[], some pc⟩

/-- A chain with one more test in front. -/
def cons (p : Pair) (c : Chain) : Chain := { c with pairs := p :: c.pairs }

/-- Collects tests from `pc` on, for a segment that starts at `key`. A store or a pair of boolean
loads ends the chain and consumes its value. Any other instruction with an effect, a test without a
jump and, outside a loop, a test that jumps backwards end it without a value; only for the first
test is a missing jump a failure. -/
def collectFrom (function : Prototype) (inLoop : Bool) (start key pc : Nat) : Analysis Chain :=
  match _h : function.code[pc]? with
  | none => return stop
  | some i =>
    if i.isConditional then
      match Code.jumpAfter? function.code pc with
      | none => if key = start then throw (.inconclusive start (.missingJump pc)) else return stop
      | some target =>
        if target ≤ pc + 1 && !inLoop then return stop
        else do
          let pair := Pair.ofFrame (← Analysis.frame function pc) key i target
          let rest ← collectFrom function inLoop start (pc + 2) (pc + 2)
          return rest.cons pair
    else if i.role = .tableStore ∨ i.role = .globalStore then return stopAt pc
    else if Code.isBooleanEnd function.code pc then return stopAt (pc + 2)
    else if i.role = .jump then collectFrom function inLoop start key (pc + 1)
    else if i.isTransparent then do
      Analysis.execute function start pc i
      collectFrom function inLoop start key (pc + 1)
    else return stop
termination_by function.code.length - pc
decreasing_by
  all_goals
    have := Code.lt_length _h
    omega

/-- Collects the tests of the condition that starts at a place. -/
def collect (function : Prototype) (inLoop : Bool) (start : Nat) : Analysis Chain :=
  collectFrom function inLoop start start start

/-- The place after the last test. -/
def resume (c : Chain) (start : Nat) : Nat :=
  match c.pairs.getLast? with
  | some p => p.pc + 2
  | none => start

/-- The register that the first assigning test assigns. -/
def register? (c : Chain) : Option UInt8 := c.pairs.findSome? Pair.assigns?

/-- The table of the branches. -/
def table (c : Chain) (start : Nat) : Table :=
  c.pairs.foldl (fun t p => t.insert p.node) (Table.empty start)

end Chain

end ShortCircuit
