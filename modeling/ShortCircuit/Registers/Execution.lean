import ShortCircuit.Registers.Frame

/-!
# Symbolic execution

The effect of an instruction on the registers. The effect is first computed as a list of writes from
the registers before it and only then performed, so a failing instruction changes nothing.

* `Frame.effect` gives the writes of an instruction.
* `RegisterStack.execute` performs them.
-/

namespace ShortCircuit

/-- The sign and strength of an arithmetic operation. -/
def Opcode.arithmetic? : Opcode → Option (String × Precedence)
  | .add => some ("+", Precedence.additive)
  | .sub => some ("-", Precedence.additive)
  | .mul => some ("*", Precedence.multiplicative)
  | .div => some ("/", Precedence.multiplicative)
  | .mod => some ("%", Precedence.multiplicative)
  | .pow => some ("^", Precedence.power)
  | _ => none

namespace Rendered

/-- A binary operation. The operand on the side away from which the operator associates has to bind
tighter than the operator; only `^` associates to the right. -/
def binary (sign : String) (level : Precedence) (left right : Rendered) : Rendered :=
  let (leftLeast, rightLeast) :=
    if level = Precedence.power then (level + 1, level) else (level, level + 1)
  ⟨left.wrap leftLeast ++ " " ++ sign ++ " " ++ right.wrap rightLeast, level⟩

/-- A unary operation; two minus signs are kept apart. -/
def unary (sign : String) (e : Rendered) : Rendered :=
  let text := e.wrap Precedence.unary
  let gap := if sign = "-" ∧ text.toList.head? = some '-' then " " else ""
  ⟨sign ++ gap ++ text, Precedence.unary⟩

/-- A concatenation of several operands. -/
def concat (parts : List Rendered) : Rendered :=
  ⟨String.intercalate " .. " (parts.map (·.wrap (Precedence.concat + 1))), Precedence.concat⟩

end Rendered

namespace Frame

/-- The last register of the run of known registers directly above `base`, or `base` itself. -/
def lastKnownAbove (f : Frame) (base : Nat) : Nat :=
  base + ((Registers.range (base + 1) 255).takeWhile fun r => (f.registers.get r).isSome).length

/-- The last argument register of a call; `B = 0` passes all known registers above the callee. -/
def lastArgument (f : Frame) (i : Instruction) : Nat :=
  if i.b = 0 then f.lastKnownAbove i.a.toNat else min (i.a.toNat + i.b.toNat - 1) 255

/-- The called expression and whether it selects a method. -/
def callee (f : Frame) (r : UInt8) : String × Bool :=
  match f.registers.get r with
  | some slot => (slot.wrap Precedence.suffix, slot.isMethod)
  | none => ((f.register r).text, false)

/-- The text of a call. -/
def callText (f : Frame) (i : Instruction) : String :=
  let (name, isMethod) := f.callee i.a
  let first := i.a.toNat + if isMethod then 2 else 1
  let arguments := (Registers.range first (f.lastArgument i)).map fun r => (f.register r).text
  name ++ "(" ++ String.intercalate ", " arguments ++ ")"

/-- A call makes callee and arguments unknown and leaves its text in the first of them, unless all
results are discarded. -/
def call (f : Frame) (i : Instruction) : List Write :=
  (Registers.range i.a.toNat (f.lastArgument i)).map Write.clear
    ++ if i.c = 1 then [] else [.store i.a (.atom (f.callText i))]

/-- What method selection leaves in its register: `object:name` for a name given by a string
constant, else the element under the key. A key register is read after the object has been stored
into the register above. -/
def selected (f : Frame) (i : Instruction) (object : Rendered) : Except ExecutionError Slot :=
  let element (f : Frame) : Except ExecutionError Slot :=
    (f.element object i.c).map fun text => { text, precedence := Precedence.suffix }
  match Operand.ofField i.c with
  | .register _ =>
    element { f with registers := f.registers.put (i.a + 1) (some { toRendered := object }) }
  | .constant index =>
    (f.constant index).bind fun l =>
      match l.text? with
      | some name =>
        .ok { text := object.wrap Precedence.suffix ++ ":" ++ name
              precedence := Precedence.suffix
              isMethod := true }
      | none => element f

/-- Method selection: the object goes to the register above, the selection to the register. -/
def method (f : Frame) (i : Instruction) : Except ExecutionError (List Write) :=
  let object := f.register i.b.toUInt8
  (f.selected i object).map fun slot => [.store (i.a + 1) object, ⟨i.a, some slot⟩]

/-- The writes of an instruction. Stores, tests and plain control flow write nothing; loops and
closures have no symbolic effect. -/
def effect (f : Frame) (i : Instruction) : Except ExecutionError (List Write) :=
  let store (e : Rendered) : List Write := [.store i.a e]
  match i.op with
  | .move | .testSet => .ok (store (f.register i.b.toUInt8))
  | .loadK => (f.constant i.bx.toNat).map fun l => store (.constant l.render)
  | .loadBool => .ok (store (.atom (if i.b = 0 then "false" else "true")))
  | .loadNil =>
    .ok ((Registers.range i.a.toNat (max i.a.toNat i.b.toUInt8.toNat)).map
      fun r => .store r (.atom "nil"))
  | .getUpvalue => .ok (store (.atom (f.upvalueName i.b.toNat)))
  | .getGlobal => (f.globalName i.bx.toNat).map fun name => store (.atom name)
  | .getTable =>
    (f.element (f.register i.b.toUInt8) i.c).map fun text => store ⟨text, Precedence.suffix⟩
  | .newTable => .ok (store (.atom "\x7b\x7d"))
  | .self => f.method i
  | .add | .sub | .mul | .div | .mod | .pow =>
    match i.op.arithmetic? with
    | none => .error (.unsupported i.op f.pc)
    | some (sign, level) => do
      let left ← f.operand i.b
      let right ← f.operand i.c
      return store (.binary sign level left right)
  | .unm => .ok (store (.unary "-" (f.register i.b.toUInt8)))
  | .not => .ok (store (.unary "not " (f.register i.b.toUInt8)))
  | .len => .ok (store (.unary "#" (f.register i.b.toUInt8)))
  | .concat =>
    .ok (store (.concat ((Registers.range i.b.toNat i.c.toNat).map f.register)))
  | .call => .ok (f.call i)
  | .vararg => .ok (store (.atom "..."))
  | .setGlobal | .setUpvalue | .setTable | .setList | .close | .jmp | .eq | .lt | .le | .test
  | .tailCall | .ret => .ok []
  | .forLoop | .forPrep | .tforLoop | .closure => .error (.unsupported i.op f.pc)

end Frame

namespace RegisterStack

/-- The frame at a place with the current registers. -/
def frame (s : RegisterStack) (function : Prototype) (pc : Nat) : Frame :=
  ⟨function, pc, s.current⟩

/-- Performs the effect of the instruction at `pc`; a failing instruction changes nothing. -/
def execute (function : Prototype) (pc : Nat) (i : Instruction) :
    EStateM ExecutionError RegisterStack Unit :=
  fun s =>
    match (s.frame function pc).effect i with
    | .ok writes => .ok () { s with current := s.current.apply writes }
    | .error e => .error e s

/-- The state after an instruction, whether it failed or not. -/
def executed (s : RegisterStack) (function : Prototype) (pc : Nat) (i : Instruction) :
    RegisterStack :=
  match execute function pc i s with
  | .ok _ s => s
  | .error _ s => s

end RegisterStack

end ShortCircuit
