/-!
# Opcodes of the Lua 5.1 virtual machine

The 38 operations, their numbers in an instruction word and their display names.

* `Opcode.ofCode?_code`: every opcode is found again from its number.
* `Opcode.code_of_ofCode?`: a number names at most the opcode that carries it.
* `Opcode.code_le`: the numbers are those from 0 to 37.
-/

namespace ShortCircuit

/-- An operation of the virtual machine, in the order of their numbers. -/
inductive Opcode where
  | move | loadK | loadBool | loadNil | getUpvalue | getGlobal | getTable | setGlobal
  | setUpvalue | setTable | newTable | self | add | sub | mul | div | mod | pow | unm | not
  | len | concat | jmp | eq | lt | le | test | testSet | call | tailCall | ret | forLoop
  | forPrep | tforLoop | setList | close | closure | vararg
deriving DecidableEq, Repr

namespace Opcode

/-- All opcodes; each stands at the position of its number. -/
def all : List Opcode :=
  [.move, .loadK, .loadBool, .loadNil, .getUpvalue, .getGlobal, .getTable, .setGlobal,
   .setUpvalue, .setTable, .newTable, .self, .add, .sub, .mul, .div, .mod, .pow, .unm, .not,
   .len, .concat, .jmp, .eq, .lt, .le, .test, .testSet, .call, .tailCall, .ret, .forLoop,
   .forPrep, .tforLoop, .setList, .close, .closure, .vararg]

/-- The number of an opcode in the low six bits of a word. -/
def code : Opcode → Nat
  | .move => 0 | .loadK => 1 | .loadBool => 2 | .loadNil => 3 | .getUpvalue => 4
  | .getGlobal => 5 | .getTable => 6 | .setGlobal => 7 | .setUpvalue => 8 | .setTable => 9
  | .newTable => 10 | .self => 11 | .add => 12 | .sub => 13 | .mul => 14 | .div => 15
  | .mod => 16 | .pow => 17 | .unm => 18 | .not => 19 | .len => 20 | .concat => 21
  | .jmp => 22 | .eq => 23 | .lt => 24 | .le => 25 | .test => 26 | .testSet => 27
  | .call => 28 | .tailCall => 29 | .ret => 30 | .forLoop => 31 | .forPrep => 32
  | .tforLoop => 33 | .setList => 34 | .close => 35 | .closure => 36 | .vararg => 37

/-- The opcode with a given number; numbers above 37 name none. -/
def ofCode? (n : Nat) : Option Opcode := all[n]?

/-- The name under which messages mention an opcode. -/
def name : Opcode → String
  | .move => "Move" | .loadK => "LoadK" | .loadBool => "LoadBool" | .loadNil => "LoadNil"
  | .getUpvalue => "GetUpval" | .getGlobal => "GetGlobal" | .getTable => "GetTable"
  | .setGlobal => "SetGlobal" | .setUpvalue => "SetUpval" | .setTable => "SetTable"
  | .newTable => "NewTable" | .self => "SelfOp" | .add => "Add" | .sub => "Sub"
  | .mul => "Mul" | .div => "Div" | .mod => "Mod" | .pow => "Pow" | .unm => "Unm"
  | .not => "Not" | .len => "Len" | .concat => "Concat" | .jmp => "Jmp" | .eq => "Eq"
  | .lt => "Lt" | .le => "Le" | .test => "Test" | .testSet => "TestSet" | .call => "Call"
  | .tailCall => "TailCall" | .ret => "Return" | .forLoop => "ForLoop"
  | .forPrep => "ForPrep" | .tforLoop => "TForLoop" | .setList => "SetList"
  | .close => "Close" | .closure => "Closure" | .vararg => "VarArg"

/-- Whether the word holds one wide operand `Bx` instead of the pair `B`, `C`. -/
def isWide : Opcode → Bool
  | .loadK | .getGlobal | .setGlobal | .jmp | .forLoop | .forPrep | .closure => true
  | _ => false

/-- Whether the wide operand is a signed jump offset. -/
def isRelative : Opcode → Bool
  | .jmp | .forLoop | .forPrep => true
  | _ => false

@[simp]
theorem ofCode?_code (op : Opcode) : ofCode? op.code = some op := by
  cases op <;> rfl

theorem code_le (op : Opcode) : op.code ≤ 37 := by
  cases op <;> decide

theorem code_of_ofCode? {n : Nat} {op : Opcode} (h : ofCode? n = some op) : op.code = n := by
  have hn : n < 38 := by
    obtain ⟨hn, _⟩ := List.getElem?_eq_some_iff.1 h
    exact hn
  have key : ∀ m : Fin 38, ∀ o, ofCode? m.val = some o → o.code = m.val := by decide
  exact key ⟨n, hn⟩ op h

/-- Exactly the numbers above 37 name no opcode. -/
theorem ofCode?_eq_none_iff {n : Nat} : ofCode? n = none ↔ 37 < n := by
  have hlen : all.length = 38 := rfl
  simp only [ofCode?, List.getElem?_eq_none_iff, hlen]
  omega

end Opcode

end ShortCircuit
