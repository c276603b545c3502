import ShortCircuit.Chunk.Reader
import ShortCircuit.Instruction.Word
import ShortCircuit.Prototype

/-!
# The body of a chunk

Strings, constants and prototypes as they lie in a chunk. Lengths of strings have the width that
the header announces; all other numbers have four bytes.

* `Reader.string?` reads a string; length zero stands for no string.
* `Reader.prototype` reads a prototype with everything inside it. Each level of nesting takes at
  least one byte, so the number of bytes bounds the depth.
-/

namespace ShortCircuit

/-- The width of string lengths. -/
inductive SizeWidth where
  | four | eight
deriving DecidableEq, Repr

/-- The width in bytes. -/
def SizeWidth.bytes : SizeWidth → Nat
  | .four => 4
  | .eight => 8

namespace Reader

/-- Drops one closing zero byte. -/
def dropTerminator (bytes : List UInt8) : List UInt8 :=
  if bytes.getLast? = some 0 then bytes.dropLast else bytes

/-- Reads a string with its closing zero byte; length zero stands for no string. -/
def string? (width : SizeWidth) : Reader (Option (List UInt8)) := do
  let n ← natural width.bytes
  if n = 0 then return none
  let bytes ← take n
  return some (dropTerminator bytes)

/-- Reads a name; no string is the empty name. -/
def name (width : SizeWidth) : Reader String := do
  let bytes ← string? width
  return Utf8.decode (bytes.getD [])

/-- Reads a constant: a tag byte and the value. -/
def literal (width : SizeWidth) : Reader Literal := fun bytes =>
  match byte bytes with
  | .error e => .error e
  | .ok (tag, rest) =>
    if tag = 0 then .ok (.nil, rest)
    else if tag = 1 then (do return .bool ((← byte) != 0) : Reader Literal) rest
    else if tag = 3 then
      (do return .number ⟨UInt64.ofNat (← natural 8)⟩ : Reader Literal) rest
    else if tag = 4 then
      (do return .string ((← string? width).getD []) : Reader Literal) rest
    else .error ⟨.badTag, bytes⟩

/-- Reads the code of a function. A word without an opcode is reported at the start of the list,
after the whole list has been read. -/
def code : Reader (List Instruction) := fun bytes =>
  match listOf (natural 4) bytes with
  | .error e => .error e
  | .ok (words, rest) =>
    match Instruction.decodeList (words.map UInt32.ofNat) with
    | .ok instructions => .ok (instructions, rest)
    | .error _ => .error ⟨.badOpcode, bytes⟩

/-- Reads a local variable. -/
def localVariable (width : SizeWidth) : Reader LocalVariable := do
  let name ← name width
  let start ← natural 4
  let stop ← natural 4
  return { name, start, stop }

/-- Reads a prototype nested at most `depth` levels deep. -/
def prototype (width : SizeWidth) : Nat → Reader PrototypeTree
  | 0 => fail .truncated
  | depth + 1 => do
    let source ← string? width
    let lineDefined ← natural 4
    let lastLineDefined ← natural 4
    let upvalueCount ← byte
    let parameterCount ← byte
    let vararg ← byte
    let maxStackSize ← byte
    let code ← code
    let constants ← listOf (literal width)
    let children ← listOf (prototype width depth)
    let lines ← listOf (natural 4)
    let locals ← listOf (localVariable width)
    let upvalueNames ← listOf (name width)
    let isVararg := vararg != 0
    let source := source.map Utf8.decode
    return .node
      { source, lineDefined, lastLineDefined, upvalueCount, parameterCount, isVararg, maxStackSize,
        code, constants, lines, locals, upvalueNames }
      children

end Reader

end ShortCircuit
