import ShortCircuit.Instruction.Opcode

/-!
# Instructions

An instruction has an opcode, a destination-like field `A` and either the pair `B`, `C` or the
wide field `Bx`. Both views are kept, so a field can be read whatever the opcode is.

* `Instruction.ofABC`, `Instruction.ofABx`, `Instruction.ofAsBx` build an instruction from one view.
* `Instruction.role` sorts instructions by what they mean to condition recovery.
* `Operand.ofField` reads a nine-bit field as a register or a constant.
-/

namespace ShortCircuit

/-- One instruction with all of its fields. -/
structure Instruction where
  op : Opcode
  a : UInt8
  b : UInt16
  c : UInt16
  bx : UInt32
deriving DecidableEq, Repr

/-- The three order and equality tests of the machine. -/
inductive Relation where
  | eq | lt | le
deriving DecidableEq, Repr

/-- What an instruction means to condition recovery. -/
inductive Role where
  | comparison (relation : Relation)
  | test
  | testSet
  | jump
  | booleanLoad
  | tableStore
  | globalStore
  | other
deriving DecidableEq, Repr

/-- Whether bit 8 marks a field as a constant. -/
def isConstantField (field : UInt16) : Bool := field.toNat / 256 % 2 = 1

/-- The index of a constant field: the field without bit 8. -/
def constantIndex (field : UInt16) : Nat :=
  if isConstantField field then field.toNat - 256 else field.toNat

/-- A field that stands for a register or a constant. -/
inductive Operand where
  | register (r : UInt8)
  | constant (index : Nat)
deriving DecidableEq, Repr

/-- Reads a field: bit 8 selects the constants, otherwise the low byte is a register. -/
def Operand.ofField (field : UInt16) : Operand :=
  if isConstantField field then .constant (constantIndex field) else .register field.toUInt8

namespace Instruction

/-- The bias of signed jump offsets. -/
def offsetBias : Int := 131071

/-- An instruction from `A`, `B` and `C`; `B` and `C` are taken as they are. -/
def ofABC (op : Opcode) (a : UInt8) (b c : UInt16) : Instruction :=
  { op, a, b, c, bx := (b.toUInt32 <<< 9) ||| c.toUInt32 }

/-- An instruction from `A` and `Bx`; `B` and `C` are the two nine-bit halves of `Bx`. -/
def ofABx (op : Opcode) (a : UInt8) (bx : UInt32) : Instruction :=
  { op, a, b := UInt16.ofNat (bx.toNat / 512 % 512), c := UInt16.ofNat (bx.toNat % 512), bx }

/-- An instruction from `A` and a signed offset. -/
def ofAsBx (op : Opcode) (a : UInt8) (offset : Int) : Instruction :=
  ofABx op a (UInt32.ofInt (offset + offsetBias))

/-- The signed offset held in `Bx`, a 32-bit difference that wraps around. -/
def offset (i : Instruction) : Int := (i.bx.toInt32 - Int32.ofInt offsetBias).toInt

/-- Where a relative jump at `pc` goes; `none` for other opcodes and for places before 0. -/
def jumpTarget? (i : Instruction) (pc : Nat) : Option Nat :=
  if i.op.isRelative then ((pc : Int) + 1 + i.offset).toNat? else none

/-- The role of an instruction. -/
def role (i : Instruction) : Role :=
  match i.op with
  | .eq => .comparison .eq
  | .lt => .comparison .lt
  | .le => .comparison .le
  | .test => .test
  | .testSet => .testSet
  | .jmp => .jump
  | .loadBool => .booleanLoad
  | .setTable => .tableStore
  | .setGlobal => .globalStore
  | _ => .other

/-- Whether the instruction is a test that skips or takes the jump after it. -/
def isConditional (i : Instruction) : Bool :=
  match i.role with
  | .comparison _ | .test | .testSet => true
  | _ => false

/-- The test outcome on which the jump after a conditional is taken. -/
def polarity (i : Instruction) : Bool :=
  match i.role with
  | .comparison _ => i.a != 0
  | .test | .testSet => i.c != 0
  | _ => false

/-- The register whose value the instruction defines, if it defines one. -/
def destination? (i : Instruction) : Option UInt8 :=
  match i.op with
  | .move | .loadK | .loadBool | .loadNil | .getUpvalue | .getGlobal | .getTable | .newTable
  | .self | .add | .sub | .mul | .div | .mod | .pow | .unm | .not | .len | .concat
  | .testSet | .closure | .vararg => some i.a
  | .call => if i.c = 1 then none else some i.a
  | _ => none

/-- Whether the instruction may stand between the tests of one condition: it only computes a
value. A call belongs here unless it discards all results. -/
def isTransparent (i : Instruction) : Bool :=
  match i.op with
  | .jmp | .not | .add | .sub | .mul | .div | .mod | .pow | .unm | .len | .concat | .getTable
  | .getGlobal | .getUpvalue | .loadK | .loadBool | .loadNil | .move | .self | .newTable
  | .vararg => true
  | .call => i.c != 1
  | _ => false

end Instruction

end ShortCircuit
