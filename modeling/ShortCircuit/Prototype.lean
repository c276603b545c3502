import ShortCircuit.Instruction.Basic
import ShortCircuit.Literal

/-!
# Function prototypes

A prototype is the compiled body of one function: code, constants and debug names. Prototypes that
are defined inside another hang below it in a tree.

* `Prototype.localName?` finds the local variable that lives in a register at a place in the code.
* `PrototypeTree.functions` lists the prototypes of a tree, each before those inside it.
-/

namespace ShortCircuit

/-- A named local variable and the range `start ≤ pc < stop` in which it is alive. -/
structure LocalVariable where
  name : String
  start : Nat
  stop : Nat
deriving DecidableEq, Repr

/-- Whether the variable is alive at `pc`. -/
def LocalVariable.isAlive (v : LocalVariable) (pc : Nat) : Bool := v.start ≤ pc && pc < v.stop

/-- The compiled body of one function, without the functions inside it. -/
structure Prototype where
  source : Option String := none
  lineDefined : Nat := 0
  lastLineDefined : Nat := 0
  upvalueCount : UInt8 := 0
  parameterCount : UInt8 := 0
  isVararg : Bool := true
  maxStackSize : UInt8 := 2
  code : List Instruction := []
  constants : List Literal := []
  lines : List Nat := []
  locals : List LocalVariable := []
  upvalueNames : List String := []
deriving DecidableEq, Repr

namespace Prototype

/-- The variables alive at `pc`, in the order of their declaration. -/
def alive (p : Prototype) (pc : Nat) : List LocalVariable := p.locals.filter (·.isAlive pc)

/-- The name of a register at `pc`: live variables occupy the registers from 0 on. -/
def localName? (p : Prototype) (r : UInt8) (pc : Nat) : Option String :=
  (p.alive pc)[r.toNat]?.map (·.name)

/-- The source line of an instruction. -/
def line? (p : Prototype) (pc : Nat) : Option Nat := p.lines[pc]?

/-- The text of a string constant. -/
def constantText? (p : Prototype) (index : Nat) : Option String :=
  p.constants[index]?.bind Literal.text?

end Prototype

/-- A prototype with the prototypes defined inside it. -/
inductive PrototypeTree where
  | node (body : Prototype) (children : List PrototypeTree)
deriving Repr

namespace PrototypeTree

/-- The prototype at the top. -/
def body : PrototypeTree → Prototype
  | .node p _ => p

/-- The trees directly inside. -/
def children : PrototypeTree → List PrototypeTree
  | .node _ cs => cs

mutual

/-- All trees inside a tree, itself first. -/
def subtrees : PrototypeTree → List PrototypeTree
  | .node p cs => .node p cs :: subtreesOf cs

/-- All trees inside several trees in order. -/
def subtreesOf : List PrototypeTree → List PrototypeTree
  | [] => []
  | t :: ts => t.subtrees ++ subtreesOf ts

end

/-- All prototypes, each before those inside it. -/
def functions (t : PrototypeTree) : List Prototype := t.subtrees.map body

end PrototypeTree

end ShortCircuit
