import ShortCircuit.Chunk.Body

/-!
# Chunks

A chunk is a twelve-byte header and the prototype of the main function. Only the standard
little-endian layout of version 5.1 is read; string lengths may have four or eight bytes.

* `Chunk.read` reads a chunk and ignores what follows it.
* `ReadError.message` is the text of each failure.
-/

namespace ShortCircuit

/-- A property of the layout that is not supported. -/
inductive LayoutProblem where
  | format
  | byteOrder
  | wordSize
  | sizeWidth
  | numberType
deriving DecidableEq, Repr

/-- What is expected of the layout. -/
def LayoutProblem.message : LayoutProblem → String
  | .format => "non-official format"
  | .byteOrder => "big-endian chunk"
  | .wordSize => "int and instruction must be 4 bytes"
  | .sizeWidth => "size_t must be 4 or 8 bytes"
  | .numberType => "lua_Number must be an 8-byte double"

/-- Why bytes are not a readable chunk. -/
inductive ReadError where
  | badSignature
  | unsupportedVersion (version : UInt8)
  | unsupportedLayout (problem : LayoutProblem)
  | malformed (failure : Malformed)
deriving DecidableEq, Repr

/-- A byte as two hexadecimal digits. -/
def hexByte (b : UInt8) : String :=
  String.ofList ((Nat.toDigits 16 b.toNat).leftpad 2 '0')

/-- The text of a failed reading step, with all unread bytes in decimal. -/
def Malformed.message (m : Malformed) : String :=
  let (severity, code) := match m.cause with
    | .truncated => ("Error", "Eof")
    | .badTag => ("Failure", "Tag")
    | .badOpcode => ("Failure", "Verify")
  let bytes := String.intercalate ", " (m.unread.map fun b => toString b.toNat)
  "Parsing " ++ severity ++ ": Error \x7b input: [" ++ bytes ++ "], code: " ++ code ++ " \x7d"

/-- The text of a failure. -/
def ReadError.message : ReadError → String
  | .badSignature => "missing Lua signature"
  | .unsupportedVersion v =>
    "unsupported bytecode version: 0x" ++ hexByte v ++ " (cinder targets Lua 5.1 only)"
  | .unsupportedLayout p => "unsupported chunk layout: " ++ p.message
  | .malformed m => "malformed chunk: " ++ m.message

/-- A chunk: the width of its string lengths and its main function. -/
structure Chunk where
  sizeWidth : SizeWidth
  main : PrototypeTree
deriving Repr

namespace Chunk

/-- The bytes a chunk starts with. -/
def signature : List UInt8 := [0x1B, 0x4C, 0x75, 0x61]

/-- The supported version. -/
def version : UInt8 := 0x51

/-- The supported format number. -/
def format : UInt8 := 0

/-- Reads the header: gives the width of string lengths and the body. The first fault in the order
signature, version, layout is reported. -/
def readHeader : List UInt8 → Except ReadError (SizeWidth × List UInt8)
  | e :: l :: u :: a :: v :: f :: order :: int :: size :: word :: number :: integral :: body =>
    if [e, l, u, a] ≠ signature then .error .badSignature
    else if v ≠ version then .error (.unsupportedVersion v)
    else if f ≠ format then .error (.unsupportedLayout .format)
    else if order ≠ 1 then .error (.unsupportedLayout .byteOrder)
    else if int ≠ 4 ∨ word ≠ 4 then .error (.unsupportedLayout .wordSize)
    else if size ≠ 4 ∧ size ≠ 8 then .error (.unsupportedLayout .sizeWidth)
    else if number ≠ 8 ∨ integral ≠ 0 then .error (.unsupportedLayout .numberType)
    else .ok (if size = 8 then .eight else .four, body)
  | _ => .error .badSignature

/-- Reads a chunk. -/
def read (bytes : List UInt8) : Except ReadError Chunk := do
  let (sizeWidth, body) ← readHeader bytes
  match Reader.prototype sizeWidth bytes.length body with
  | .ok (main, _) => return { sizeWidth, main }
  | .error failure => throw (.malformed failure)

/-- All functions of a chunk, the main function first and each before those inside it. -/
def functions (c : Chunk) : List Prototype := c.main.functions

end Chunk

end ShortCircuit
