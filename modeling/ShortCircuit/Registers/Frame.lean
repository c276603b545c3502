import ShortCircuit.Prototype
import ShortCircuit.Registers.Basic

/-!
# Reading operands

A frame is a function at a place in its code with the registers there. It turns operand fields into
rendered expressions: names of live variables win over register contents, and keys that are names
are written with a dot.
-/

namespace ShortCircuit

/-- Why an instruction has no symbolic effect. -/
inductive ExecutionError where
  | unsupported (op : Opcode) (pc : Nat)
  | missingConstant (index pc : Nat)
deriving DecidableEq, Repr

/-- The text of an execution error. -/
def ExecutionError.message : ExecutionError → String
  | .unsupported op pc =>
    op.name ++ " at pc " ++ toString pc ++ " cannot be executed symbolically"
  | .missingConstant index pc =>
    "constant K" ++ toString index ++ " referenced at pc " ++ toString pc ++ " does not exist"

/-- A function, a place in its code, and the registers there. -/
structure Frame where
  function : Prototype
  pc : Nat
  registers : Registers

/-- A store recognised at a place: destination, value, and the register that held the value. -/
structure Assignment where
  target : String
  value : String
  source : Option UInt8
deriving DecidableEq, Repr

namespace Frame

/-- A constant of the function. -/
def constant (f : Frame) (index : Nat) : Except ExecutionError Literal :=
  match f.function.constants[index]? with
  | some l => .ok l
  | none => .error (.missingConstant index f.pc)

/-- A register: the name of the live variable in it, else its contents. -/
def register (f : Frame) (r : UInt8) : Rendered :=
  match f.function.localName? r f.pc with
  | some name => .atom name
  | none => f.registers.rendered r

/-- An operand field as an expression. -/
def operand (f : Frame) (field : UInt16) : Except ExecutionError Rendered :=
  match Operand.ofField field with
  | .register r => .ok (f.register r)
  | .constant index => (f.constant index).map fun l => .constant l.render

/-- The element of `table` under a key field: `t.name` when the key is a name, else `t[k]`. -/
def element (f : Frame) (table : Rendered) (key : UInt16) : Except ExecutionError String :=
  let object := table.wrap Precedence.suffix
  match Operand.ofField key with
  | .register r => .ok (object ++ "[" ++ (f.register r).text ++ "]")
  | .constant index =>
    (f.constant index).map fun l =>
      match l.identifier? with
      | some name => object ++ "." ++ name
      | none => object ++ "[" ++ l.render ++ "]"

/-- The global variable named by a constant. -/
def globalName (f : Frame) (index : Nat) : Except ExecutionError String :=
  (f.constant index).map fun l =>
    match l.identifier? with
    | some name => name
    | none => "_G[" ++ l.render ++ "]"

/-- The name of an upvalue. -/
def upvalueName (f : Frame) (index : Nat) : String :=
  f.function.upvalueNames[index]?.getD ("upvalue" ++ toString index)

/-- An operand field as a side of a comparison; a missing constant is shown by its number. -/
def operandText (f : Frame) (field : UInt16) : String :=
  match f.operand field with
  | .ok e => e.wrapOperand
  | .error _ => "K" ++ toString (constantIndex field)

/-- The store that an instruction performs, if it is one and its operands exist. -/
def assignment? (f : Frame) (i : Instruction) : Option Assignment :=
  match i.op with
  | .setGlobal =>
    match f.globalName i.bx.toNat with
    | .ok target => some ⟨target, (f.register i.a).text, some i.a⟩
    | .error _ => none
  | .setTable =>
    match f.element (f.register i.a) i.b, f.operand i.c with
    | .ok target, .ok value =>
      let source := match Operand.ofField i.c with
        | .register r => some r
        | .constant _ => none
      some ⟨target, value.text, source⟩
    | _, _ => none
  | _ => none

end Frame

end ShortCircuit
